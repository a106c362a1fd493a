import LogosChain.Chain.ServedPaths

/-!
# Downloads in rounds

A peer asks for a target again and again, each time from the last block it received. If it starts
below the LIB with a target above, it passes the LIB: the download is complete if a batch ends
exactly there, and otherwise the LIB is served twice.
-/

namespace Logos.Chain

open Base Mantle Ledger Engine Map List

variable {parentOf : Hash → Hash} {genesis : Hash} {c : Engine.Cryptarchia Hash} {p : BlockProvider}

/-- A stored block: it is in the tree or immutable, and it has a parent. -/
theorem Serves.isSome_getBlock (h : Serves parentOf genesis c p.storage) {i : Hash}
    (hlink : parentLink parentOf i ≠ none)
    (hi : (∃ b, c.branches.Has b ∧ b.id = i) ∨ ∃ slot, p.storage.getImmutableBlockId slot = some i) :
    (p.storage.getBlock i).isSome := by
  have hne : i ≠ genesis := fun he => hlink (he ▸ h.archive.root_none)
  grind [stored_tree, stored_immutable]

namespace BlockProvider

variable [HeaderPrimitives] {target : Hash}

/-- A peer that asks in rounds, knowing the last block it received. -/
def download (p : BlockProvider) (c : Engine.Cryptarchia Hash) (target : Hash) :
    Nat → Hash → Except GetBlocksError (List Hash)
  | 0, _ => .ok []
  | rounds + 1, known => do
    let blocks ← p.blockStream c target [known]
    match blocks.getLast? with
    | none => return []
    | some last =>
      let later ← p.download c target rounds last
      return blocks ++ later

/-- All blocks of a path but the first are served, if stored. -/
theorem blockStream_eq {known path : List Hash} (hok : p.findPath c target known = .ok path)
    (hstored : ∀ i ∈ path.drop 1, (p.storage.getBlock i).isSome) :
    p.blockStream c target known = .ok (path.drop 1) := by
  refine ok_bind hok (congrArg Except.ok ?_)
  rw [streamBlocksFromPath, takeWhile_eq_self_iff]
  exact hstored

/-- If each round serves the next batch of what is left, the peer gets what is left. -/
theorem download_eq {R : Hash → List Hash → Prop}
    (hserve : ∀ k l, R k l → p.blockStream c target [k] = .ok (l.take p.batchSize))
    (hnext : ∀ k l x, R k l → (l.take p.batchSize).getLast? = some x →
      R x (l.drop p.batchSize)) {k : Hash} {l : List Hash} (hl : R k l) {rounds : Nat}
    (hr : l.length ≤ rounds) : p.download c target rounds k = .ok l := by
  have hpos := p.batchSize_pos
  induction rounds generalizing k l with
  | zero =>
    rw [eq_nil_of_length_eq_zero (Nat.le_zero.mp hr)]
    rfl
  | succ rounds ih =>
    cases hlast : (l.take p.batchSize).getLast? with
    | none =>
      -- a batch is not empty, so nothing is left
      have hnil : l = [] := by grind [List.getLast?_eq_none_iff]
      refine ok_bind (hserve k l hl) ?_
      rw [hlast, hnil]
      rfl
    | some x =>
      have hlen : (l.drop p.batchSize).length ≤ rounds := by
        rw [length_drop]
        omega
      refine ok_bind (hserve k l hl) ?_
      rw [hlast]
      refine ok_bind (ih (hnext k l x hl hlast) hlen) ?_
      rw [take_append_drop]
      rfl

/-! ## What a round serves -/

section

variable (h : Serves parentOf genesis c p.storage) {b : Branch Hash} {above : List (Branch Hash)}
  {k : Hash}
include h

omit [HeaderPrimitives] in
/-- The blocks of a path in the tree after its first are stored. -/
theorem stored_of_path {a x : Branch Hash} (hb : c.branches.Has b)
    (hpath : Path c.branches.par a above b)
    (hx : x ∈ above) : (p.storage.getBlock x.id).isSome := by
  obtain ⟨hax, hxb, hne⟩ := (hpath.mem_iff h.archive.tree.graded).mp hx
  refine h.isSome_getBlock ?_ (.inl ⟨x, h.archive.tree.anc_has hxb hb, rfl⟩)
  rcases hax.cases_parent with he | ⟨q, hq, -⟩
  · exact absurd he.symm hne
  · rw [h.archive.link_of_par hq]
    exact Option.some_ne_none _

theorem stream_in_tree {a : Branch Hash} (hb : c.branches.Has b)
    (hpath : Path c.branches.par a above b) :
    p.blockStream c b.id [a.id] = .ok ((above.map (·.id)).take p.batchSize) := by
  have ha := h.archive.tree.anc_has hpath.anc hb
  have hmax : maxLca c b [a.id] = some a := by
    obtain ⟨l, hlca, -, hisLca⟩ := h.archive.tree.lca_spec ha hb
    have hget : c.branches.get a.id = some a := ha
    obtain rfl := hisLca.unique h.archive.tree.graded (.of_anc hpath.anc)
    simp only [maxLca, filterMap_cons, filterMap_nil, hget, Option.bind_some, hlca]
    rfl
  rw [blockStream_eq (findPath_in_tree h.archive.tree hb hmax hpath)]
  · rfl
  · grind [stored_of_path]

theorem start_of_indexed {s : Nat} (hs : p.storage.getImmutableBlockId s = some k) :
    ∃ id, p.findOptimalStartBlockFromStorage [k] = .ok (some ⟨id, s, .storage⟩) := by
  rcases startFromStorage_spec h [k] with ⟨-, hnone⟩ | ⟨id, slot, hstart, ⟨k', hk', hslot⟩, -⟩
  · exact absurd hs (hnone k (mem_singleton_self k) s)
  · grind [Serves.slot_unique]

omit [HeaderPrimitives] in
/-- A known block outside the tree gives no start in the tree. -/
theorem engine_none (hb : c.branches.Has b) (hk : k ∉ c.branches.branches) :
    findOptimalStartBlockFromEngine c [k] ⟨b.id, b.slot, .engine⟩ = .ok none := by
  rw [findOptimalStartBlockFromEngine_of_has hb]
  rcases maxLca_spec h.archive.tree hb [k] with ⟨hmax, -⟩ | ⟨a, kb, -, hkb, hHas, -⟩
  · rw [hmax]
    rfl
  · exact absurd (mem_singleton.mp hkb ▸ hHas.mem) hk

end

section

variable {pre tail post : List (Nat × Hash)} {s t : Nat} {k target : Hash}

variable (h : Serves parentOf genesis c p.storage)
include h

section

variable (hidx : toList p.storage.immutableBlockIds = pre ++ (s, k) :: tail ++ post)
include hidx

omit [HeaderPrimitives] in
/-- The blocks of a section of the index after its first are stored. -/
theorem stored_of_section {e : Nat × Hash} (he : e ∈ tail) : (p.storage.getBlock e.2).isSome := by
  have hin : e ∈ toList p.storage.immutableBlockIds := by grind
  refine h.isSome_getBlock (fun hnone => ?_) (.inr ⟨e.1, mem_toList.mp hin⟩)
  have hchain := h.archive.chain
  obtain ⟨l₁, l₂, rfl⟩ := append_of_mem he
  rw [hidx, append_assoc] at hchain
  -- the block has one before it, which is its parent
  have hpair := (hchain.right_of_append).left_of_append
  rw [← cons_append, isChain_append] at hpair
  grind

omit [HeaderPrimitives] in
theorem section_eq_nil (hlast : ((s, k) :: tail).getLast? = some (t, k)) : tail = [] := by
  obtain ⟨hpath, hnodup⟩ := h.path_of_section hidx hlast
  by_contra hne
  have hend := hpath.getLast?
  rw [List.getLast?_cons_of_ne_nil fun he => hne (map_eq_nil_iff.mp he)] at hend
  exact (nodup_cons.mp hnodup).1 (mem_of_getLast? hend)

variable (hlast : ((s, k) :: tail).getLast? = some (t, target)) (htarget : target ≠ genesis)
include hlast htarget

/-- The path between two immutable blocks, not both the LIB. -/
theorem findPath_in_index (hk : target ∈ c.branches.branches → k ∉ c.branches.branches) :
    p.findPath c target [k] = .ok ((((s, k) :: tail).map (·.2)).take (p.batchSize + 1)) := by
  have hin : ∀ e ∈ (s, k) :: tail, p.storage.getImmutableBlockId e.1 = some e.2 := fun e he =>
    mem_toList.mp (by grind)
  have ht : p.storage.getImmutableBlockId t = some target := hin _ (mem_of_getLast? hlast)
  obtain ⟨id, hstart⟩ := start_of_indexed h (hin _ mem_cons_self)
  cases hget : c.branches.get target with
  | none =>
    obtain ⟨block, hload, hslot⟩ := loadImmutableBlock_of_indexed h ht htarget
    have hinfo : p.findTargetBlock c target = .ok ⟨target, t, .storage⟩ := by
      simp only [findTargetBlock, hget, hload, hslot]
    rw [findPath_from_storage hinfo (fun he => by cases he) hstart]
    exact pathInIndex_eq hidx hlast
  | some b =>
    -- the target is the LIB
    have hb := h.archive.tree.has_of_lookup hget
    obtain rfl := h.archive.tree.key _ _ hget
    have hlib := h.archive.lib_of_mem hb (mem_toList.mpr ht)
    obtain ⟨l, hl, hlid, hend⟩ := h.archive.last
    obtain rfl := Branches.eq_of_id hb hl (hlib.trans hlid.symm)
    have hslot : t = b.slot :=
      h.slot_unique ht (mem_toList.mp (mem_of_getLast? hend) : _ = some b.id)
    rw [hslot] at hlast
    rw [findPath_from_storage (findTargetBlock_of_has hb)
      (fun _ => engine_none h hb (hk hb.mem)) hstart]
    exact pathInIndex_eq hidx hlast

theorem stream_in_index : p.blockStream c target [k] = .ok ((tail.map (·.2)).take p.batchSize) := by
  by_cases hboth : target ∈ c.branches.branches ∧ k ∈ c.branches.branches
  · -- both are the LIB, so nothing is between them
    obtain ⟨b, hb, rfl⟩ := h.archive.tree.exists_has hboth.1
    obtain ⟨kb, hkb, rfl⟩ := h.archive.tree.exists_has hboth.2
    have hmem : ∀ e ∈ (s, kb.id) :: tail, e ∈ toList p.storage.immutableBlockIds := fun e he => by
      grind
    have hklib := h.archive.lib_of_mem hkb (hmem _ mem_cons_self)
    have hblib := h.archive.lib_of_mem hb (hmem _ (mem_of_getLast? hlast))
    obtain rfl := Branches.eq_of_id hkb hb (hklib.trans hblib.symm)
    rw [section_eq_nil h hidx hlast]
    exact stream_in_tree h hkb .nil
  · rw [blockStream_eq (findPath_in_index h hidx hlast htarget fun ht hk => hboth ⟨ht, hk⟩)]
    · rfl
    · intro i hi
      rw [map_cons, take_succ_cons, drop_one, tail_cons] at hi
      obtain ⟨e, he, rfl⟩ := mem_map.mp (mem_of_mem_take hi)
      exact stored_of_section h hidx he

end

theorem stream_across {l b : Branch Hash} {above : List (Branch Hash)} (hlid : l.id = c.lib)
    (hpath : Path c.branches.par l above b) (hb : c.branches.Has b) (hne : b.id ≠ c.lib)
    (hk : k ∉ c.branches.branches)
    (hidx : toList p.storage.immutableBlockIds = pre ++ (s, k) :: tail ++ [])
    (hlast : ((s, k) :: tail).getLast? = some (l.slot, l.id)) :
    p.blockStream c b.id [k] =
      .ok ((tail.map (·.2) ++ (l :: above).map (·.id)).take p.batchSize) := by
  have hmem : (s, k) ∈ toList p.storage.immutableBlockIds := by grind
  obtain ⟨id, hstart⟩ := start_of_indexed h (mem_toList.mp hmem)
  have hfind := findPath_from_storage (findTargetBlock_of_has hb)
    (fun _ => engine_none h hb hk) hstart
  rw [pathAcross_eq h hlid hpath hb hne hidx hlast] at hfind
  refine blockStream_eq hfind fun i hi => ?_
  -- the LIB is also the last immutable block
  have hltail : (l.slot, l.id) ∈ tail := by
    grind [Branches.Has.mem, h.archive.tree.anc_has hpath.anc hb]
  rcases mem_append.mp (mem_of_mem_take hi) with hmem | hmem
  · obtain ⟨e, he, rfl⟩ := mem_map.mp hmem
    exact stored_of_section h hidx he
  · grind [stored_of_section, stored_of_path]

end

/-! ## What is left of a download -/

/-- The blocks left between two blocks of the tree. -/
def LeftInTree (c : Engine.Cryptarchia Hash) (b : Branch Hash) (k : Hash) (l : List Hash) :
    Prop :=
  ∃ a above, a.id = k ∧ Path c.branches.par a above b ∧ l = above.map (·.id)

/-- The blocks left in the index up to the entry `z`. -/
def LeftInIndex (p : BlockProvider) (z : Nat × Hash) (post : List (Nat × Hash)) (k : Hash)
    (l : List Hash) : Prop :=
  ∃ pre s tail, toList p.storage.immutableBlockIds = pre ++ (s, k) :: tail ++ post ∧
    ((s, k) :: tail).getLast? = some z ∧ l = tail.map (·.2)

variable {b : Branch Hash} {n rounds : Nat} {post : List (Nat × Hash)}

omit [HeaderPrimitives] in
theorem LeftInTree.next (k : Hash) (l : List Hash) (x : Hash) (hl : LeftInTree c b k l)
    (hx : (l.take n).getLast? = some x) : LeftInTree c b x (l.drop n) := by
  obtain ⟨a, above, -, hpath, rfl⟩ := hl
  rw [← map_take, List.getLast?_map, Option.map_eq_some_iff] at hx
  obtain ⟨y, hy, rfl⟩ := hx
  exact ⟨y, above.drop n, rfl, hpath.drop hy, map_drop.symm⟩

omit [HeaderPrimitives] in
theorem LeftInIndex.next {z : Nat × Hash} (k : Hash) (l : List Hash) (x : Hash)
    (hl : p.LeftInIndex z post k l)
    (hx : (l.take n).getLast? = some x) : p.LeftInIndex z post x (l.drop n) := by
  obtain ⟨pre, s, tail, hidx, hlast, rfl⟩ := hl
  rw [← map_take, List.getLast?_map, Option.map_eq_some_iff] at hx
  obtain ⟨e, he, rfl⟩ := hx
  obtain ⟨init, hinit⟩ := List.getLast?_eq_some_iff.mp he
  have htail : tail = init ++ e :: tail.drop n := by
    rw [append_cons, ← hinit, take_append_drop]
  refine ⟨pre ++ (s, k) :: init, e.1, tail.drop n, ?_, ?_, map_drop.symm⟩
  · grind
  · grind

theorem download_in_tree (h : Serves parentOf genesis c p.storage) {a : Branch Hash}
    {above : List (Branch Hash)} (hb : c.branches.Has b) (hpath : Path c.branches.par a above b)
    (hr : above.length ≤ rounds) : p.download c b.id rounds a.id = .ok (above.map (·.id)) := by
  refine download_eq (R := LeftInTree c b) ?_ LeftInTree.next ⟨a, above, rfl, hpath, rfl⟩
    (by rwa [length_map])
  rintro k l ⟨a, above, rfl, hpath, rfl⟩
  exact stream_in_tree h hb hpath

theorem download_in_index (h : Serves parentOf genesis c p.storage) {t : Nat} {target k : Hash}
    (htarget : target ≠ genesis) {l : List Hash} (hl : p.LeftInIndex (t, target) post k l)
    (hr : l.length ≤ rounds) : p.download c target rounds k = .ok l := by
  refine download_eq (R := p.LeftInIndex (t, target) post) ?_ LeftInIndex.next hl hr
  rintro k l ⟨pre, s, tail, hidx, hlast, rfl⟩
  exact stream_in_index h hidx hlast htarget

/-! ## Downloads that pass the LIB -/

section

variable {lib b : Branch Hash} {above : List (Branch Hash)} {k : Hash} {l : List Hash}

omit [HeaderPrimitives] in
/-- After an immutable block in the tree, the LIB, none is left. -/
theorem LeftInIndex.eq_nil (h : Serves parentOf genesis c p.storage) (hlid : lib.id = c.lib)
    (hl : p.LeftInIndex (lib.slot, lib.id) [] k l) (hk : k ∈ c.branches.branches) :
    k = lib.id ∧ l = [] := by
  obtain ⟨pre, s, tail, hidx, hlast, rfl⟩ := hl
  obtain ⟨kb, hkb, rfl⟩ := h.archive.tree.exists_has hk
  have hmem : (s, kb.id) ∈ toList p.storage.immutableBlockIds := by grind
  have he : kb.id = lib.id := (h.archive.lib_of_mem hkb hmem).trans hlid.symm
  grind [section_eq_nil]

omit [HeaderPrimitives] in
theorem LeftInIndex.lib_mem (hlib : c.branches.Has lib)
    (hl : p.LeftInIndex (lib.slot, lib.id) [] k l) (hk : k ∉ c.branches.branches) : lib.id ∈ l := by
  obtain ⟨pre, s, tail, hidx, hlast, rfl⟩ := hl
  grind [Branches.Has.mem]

variable (h : Serves parentOf genesis c p.storage) (hlid : lib.id = c.lib)
  (hpath : Path c.branches.par lib above b) (hb : c.branches.Has b) (hne : b.id ≠ c.lib)
  (hk : k ∉ c.branches.branches) (hl : p.LeftInIndex (lib.slot, lib.id) [] k l) {rounds : Nat}
include h hlid hpath hb hne hk hl

theorem stream_of_left :
    p.blockStream c b.id [k] = .ok ((l ++ (lib :: above).map (·.id)).take p.batchSize) := by
  obtain ⟨pre, s, tail, hidx, hlast, rfl⟩ := hl
  exact stream_across h hlid hpath hb hne hk hidx hlast

/-- If a batch ends at the LIB, the download is complete. -/
theorem download_across (hdvd : p.batchSize ∣ l.length) (hr : l.length + above.length ≤ rounds) :
    p.download c b.id rounds k = .ok (l ++ above.map (·.id)) := by
  have hlib := h.archive.tree.anc_has hpath.anc hb
  -- a block below the LIB has at least a batch of immutable blocks after it
  have hfull : ∀ {k l}, k ∉ c.branches.branches → p.LeftInIndex (lib.slot, lib.id) [] k l →
      p.batchSize ∣ l.length → p.batchSize ≤ l.length := fun hk hl hdvd =>
    Nat.le_of_dvd (length_pos_of_mem (hl.lib_mem hlib hk)) hdvd
  refine download_eq (R := fun k l => LeftInTree c b k l ∨ k ∉ c.branches.branches ∧
      ∃ immutable, p.LeftInIndex (lib.slot, lib.id) [] k immutable ∧
        p.batchSize ∣ immutable.length ∧ l = immutable ++ above.map (·.id)) ?_ ?_
    (.inr ⟨hk, l, hl, hdvd, rfl⟩) (by simpa using hr)
  · rintro k l (⟨a, path, rfl, hpath, rfl⟩ | ⟨hk, immutable, hl, hdvd, rfl⟩)
    · exact stream_in_tree h hb hpath
    · have hle := hfull hk hl hdvd
      rw [stream_of_left h hlid hpath hb hne hk hl, take_append_of_le_length hle,
        take_append_of_le_length hle]
  · rintro k l x (hl | ⟨hk, immutable, hl, hdvd, rfl⟩) hx
    · exact .inl (hl.next _ _ _ hx)
    · have hle := hfull hk hl hdvd
      rw [take_append_of_le_length hle] at hx
      rw [drop_append_of_le_length hle]
      have hnext := hl.next _ _ _ hx
      by_cases hmem : x ∈ c.branches.branches
      · obtain ⟨rfl, hnil⟩ := hnext.eq_nil h hlid hmem
        rw [hnil]
        exact .inl ⟨lib, above, rfl, hpath, rfl⟩
      · grind [Nat.dvd_sub, dvd_refl]

theorem not_nodup_download (hdvd : ¬ p.batchSize ∣ l.length) (hr : l.length ≤ rounds)
    {blocks : List Hash} (hok : p.download c b.id rounds k = .ok blocks) : ¬ blocks.Nodup := by
  have hpos := p.batchSize_pos
  have hlib := h.archive.tree.anc_has hpath.anc hb
  induction rounds generalizing k l blocks with
  | zero =>
    grind [dvd_zero]
  | succ rounds ih =>
    obtain ⟨batch, hbatch, hok⟩ := bind_ok hok
    rw [stream_of_left h hlid hpath hb hne hk hl] at hbatch
    by_cases hle : p.batchSize ≤ l.length
    · -- the batch is below the LIB, and what is left does not end with one either
      rw [take_append_of_le_length hle] at hbatch
      cases hbatch
      cases hx : (l.take p.batchSize).getLast? with
      | none => grind
      | some x =>
        rw [hx] at hok
        obtain ⟨later, hlater, hok⟩ := bind_ok hok
        cases hok
        have hnext := hl.next _ _ _ hx
        have hleft : ¬ p.batchSize ∣ (l.drop p.batchSize).length := by
          grind [Nat.dvd_sub_iff_left, dvd_refl]
        have hmem : x ∉ c.branches.branches := fun hmem => by grind [dvd_zero, LeftInIndex.eq_nil]
        grind
    · cases hbatch
      have htwice := not_nodup_take (above.map (·.id)) (hl.lib_mem hlib hk) (not_le.mp hle)
      split at hok
      · grind
      · obtain ⟨later, -, hok⟩ := bind_ok hok
        cases hok
        exact fun hnodup => htwice (nodup_append.mp hnodup).1

end

/-! ## The whole download -/

/-- In enough rounds the peer receives each block up to the target once. -/
def Downloads (parentOf : Hash → Hash) (p : BlockProvider) (c : Engine.Cryptarchia Hash)
    (target known : Hash) : Prop :=
  ∃ enough, ∀ rounds, enough ≤ rounds → ∃ blocks, p.download c target rounds known = .ok blocks ∧
    Path (parentLink parentOf) known blocks target ∧ (known :: blocks).Nodup

/-- A download from the index into the tree; no batch ends at the LIB. -/
def Misaligned (p : BlockProvider) (c : Engine.Cryptarchia Hash) (target known : Hash) : Prop :=
  target ∈ c.branches.branches ∧ target ≠ c.lib ∧ known ∉ c.branches.branches ∧
    ∃ slot, p.storage.getImmutableBlockId slot = some known ∧
      ¬ p.batchSize ∣ p.storage.immutableBlocksAfter slot

section

variable {target known : Hash}

variable (h : Serves parentOf genesis c p.storage) {b : Branch Hash}
include h

omit [HeaderPrimitives] in
theorem path_to_target (htarget : target ∈ c.branches.branches ∨
      ∃ slot, p.storage.getImmutableBlockId slot = some target) :
    ∃ l, Path (parentLink parentOf) genesis l target := by
  rcases htarget with hmem | ⟨slot, hslot⟩
  · obtain ⟨b, hb, rfl⟩ := h.archive.tree.exists_has hmem
    obtain ⟨rest, above, -, hrest, habove⟩ := h.archive.path_of_has hb
    exact ⟨_, hrest.append habove⟩
  · obtain ⟨l₁, -, h₁, -⟩ := h.archive.path_of_mem (mem_toList (e := (slot, target)).mpr hslot)
    exact ⟨l₁, h₁⟩

theorem downloads_of_path (htarget : target ∈ c.branches.branches ∨
      ∃ slot, p.storage.getImmutableBlockId slot = some target) {blocks : List Hash}
    (hpath : Path (parentLink parentOf) known blocks target)
    (hok : ∀ rounds, blocks.length ≤ rounds → p.download c target rounds known = .ok blocks) :
    p.Downloads parentOf c target known := by
  obtain ⟨l, hl⟩ := path_to_target h htarget
  obtain ⟨l₁, -, -, h₁, -⟩ := hl.split (hl.mem_of_anc h.archive.root_none hpath.anc)
  exact ⟨blocks.length, fun rounds hr =>
    ⟨blocks, hok rounds hr, hpath, h₁.nodup_of_rooted h.archive.root_none hpath⟩⟩

omit [HeaderPrimitives] in
/-- An ancestor of a block is below it in the tree, or immutable. -/
theorem known_of_anc (hb : c.branches.Has b) (hknown : Anc (parentLink parentOf) known b.id) :
    (∃ a, c.branches.Has a ∧ a.id = known ∧ Anc c.branches.par a b) ∨
      known ∉ c.branches.branches ∧ ∃ slot, p.storage.getImmutableBlockId slot = some known := by
  obtain ⟨l, hl, hlid⟩ := h.archive.tree.exists_lib
  have hlb := h.archive.tree.lib_anc hl hlid hb
  obtain ⟨above, habove⟩ := Path.of_anc hlb
  obtain ⟨rest, heq, hrest⟩ := h.archive.path_lib
  have htree := h.archive.path_tree habove
  rw [hlid] at htree
  have hmem := (hrest.append htree).mem_of_anc h.archive.root_none hknown
  rw [← cons_append, ← heq, mem_append] at hmem
  rcases hmem with hmem | hmem
  · obtain ⟨⟨slot, i⟩, he, rfl⟩ := mem_map.mp hmem
    by_cases hin : i ∈ c.branches.branches
    · obtain ⟨a, ha, rfl⟩ := h.archive.tree.exists_has hin
      obtain rfl := Branches.eq_of_id ha hl ((h.archive.lib_of_mem ha he).trans hlid.symm)
      exact .inl ⟨a, ha, rfl, hlb⟩
    · exact .inr ⟨hin, slot, mem_toList.mp he⟩
  · obtain ⟨a, ha, rfl⟩ := mem_map.mp hmem
    obtain ⟨-, hab, -⟩ := (habove.mem_iff h.archive.tree.graded).mp ha
    exact .inl ⟨a, h.archive.tree.anc_has hab hb, rfl, hab⟩

theorem downloads_iff_of_has (hb : c.branches.Has b) (hknown : Anc (parentLink parentOf) known b.id)
    (hne : b.id ≠ genesis) : p.Downloads parentOf c b.id known ↔ ¬ p.Misaligned c b.id known := by
  rcases known_of_anc h hb hknown with ⟨a, ha, rfl, hab⟩ | ⟨hout, slot, hslot⟩
  · -- within the tree
    obtain ⟨above, habove⟩ := Path.of_anc hab
    refine iff_of_true (downloads_of_path h (.inl hb.mem) (h.archive.path_tree habove)
      fun rounds hr => download_in_tree h hb habove (by rwa [length_map] at hr))
      fun hmis => hmis.2.2.1 ha.mem
  · obtain ⟨l, hl, hlid⟩ := h.archive.tree.exists_lib
    obtain ⟨pre, tail, hidx, hlast, hafter⟩ := h.section_to_lib hl hlid hslot
    have hleft : p.LeftInIndex (l.slot, l.id) [] known (tail.map (·.2)) :=
      ⟨pre, slot, tail, hidx, hlast, rfl⟩
    have hbelow := (h.path_of_section hidx hlast).1
    by_cases hbl : b.id = c.lib
    · -- up to the LIB
      obtain rfl := Branches.eq_of_id hb hl (hbl.trans hlid.symm)
      exact iff_of_true (downloads_of_path h (.inl hb.mem) hbelow
        fun rounds hr => download_in_index h hne hleft hr) fun hmis => hmis.2.1 hbl
    · obtain ⟨above, habove⟩ := Path.of_anc (h.archive.tree.lib_anc hl hlid hb)
      by_cases hdvd : p.batchSize ∣ (tail.map (·.2)).length
      · refine iff_of_true (downloads_of_path h (.inl hb.mem)
          (hbelow.append (h.archive.path_tree habove)) fun rounds hr =>
            download_across h hlid habove hb hbl hout hleft hdvd (by simpa using hr)) ?_
        rintro ⟨-, -, -, s, hs, hmis⟩
        grind [Serves.slot_unique]
      · refine iff_of_false ?_ (not_not.mpr ⟨hb.mem, hbl, hout, slot, hslot, ?_⟩)
        · rintro ⟨enough, hall⟩
          obtain ⟨blocks, hok, -, hnodup⟩ :=
            hall (max enough (tail.map (·.2)).length) (le_max_left _ _)
          exact not_nodup_download h hlid habove hb hbl hout hleft hdvd (le_max_right _ _) hok
            (nodup_cons.mp hnodup).2
        · rwa [hafter, ← length_map]

theorem downloads_to_storage {t : Nat} (ht : p.storage.getImmutableBlockId t = some target)
    (hknown : Anc (parentLink parentOf) known target) (hne : target ≠ genesis) :
    p.Downloads parentOf c target known := by
  obtain ⟨pre, tail, post, hidx, hlast⟩ := exists_section h.genesis_indexed ht (Nat.zero_le t)
  obtain ⟨hpath, -⟩ := h.path_of_section hidx hlast
  -- the index up to the target holds all its ancestors
  have hmem := hpath.mem_of_anc h.archive.root_none hknown
  rw [show genesis :: tail.map (·.2) = ((0, genesis) :: tail).map (·.2) from rfl] at hmem
  obtain ⟨⟨s, k⟩, he, rfl⟩ := mem_map.mp hmem
  obtain ⟨l₁, l₂, hsplit⟩ := append_of_mem he
  rw [hsplit, ← append_assoc] at hidx
  rw [hsplit, List.getLast?_append_of_ne_nil _ (cons_ne_nil _ _)] at hlast
  exact downloads_of_path h (.inr ⟨t, ht⟩) (h.path_of_section hidx hlast).1
    fun rounds hr => download_in_index h hne ⟨_, s, l₂, hidx, hlast, rfl⟩ hr

/-- A download is complete, unless no batch of it ends at the LIB. -/
theorem downloads_iff (htarget : target ∈ c.branches.branches ∨
      ∃ slot, p.storage.getImmutableBlockId slot = some target)
    (hknown : Anc (parentLink parentOf) known target) (hne : known ≠ target) :
    p.Downloads parentOf c target known ↔ ¬ p.Misaligned c target known := by
  have hgenesis : target ≠ genesis := by
    rintro rfl
    rcases hknown.cases_parent with he | ⟨q, hq, -⟩
    · exact hne he
    · rw [h.archive.root_none] at hq
      cases hq
  by_cases hmem : target ∈ c.branches.branches
  · obtain ⟨b, hb, rfl⟩ := h.archive.tree.exists_has hmem
    exact downloads_iff_of_has h hb hknown hgenesis
  · obtain ⟨t, ht⟩ := htarget.resolve_left hmem
    exact iff_of_true (downloads_to_storage h ht hknown hgenesis) fun hmis => hmem hmis.1

end

end BlockProvider

/-! ## Runs -/

/-- A served path is a segment of the chain of the target unless it runs over the seam, and a peer
receives each block once unless no batch ends at the LIB. -/
theorem served_paths_iff [HeaderPrimitives] [Primitives] (parentOf : Hash → Hash) (genesis : Hash) :
    (∀ genesisState eras state evs n, genesisState.slot = 0 →
      Run Node.Step ⟨.fromGenesis genesis genesisState eras state, .empty⟩ evs n →
      Hashed parentOf ⟨genesis, genesis, 0, 0, []⟩ (engineEvents evs) →
      (∃ pruned, .online pruned ∈ evs) →
      Serves parentOf genesis n.cryptarchia.consensus n.storage) ∧
    ∀ (p : BlockProvider) (c : Engine.Cryptarchia Hash), Serves parentOf genesis c p.storage →
      (∀ target known path, p.findPath c target known = .ok path →
        (Segment parentOf known target (p.batchSize + 1) path ↔ ¬ p.Seam c target known)) ∧
      ∀ target known, target ∈ c.branches.branches ∨
          (∃ slot, p.storage.getImmutableBlockId slot = some target) →
        Anc (parentLink parentOf) known target → known ≠ target →
        (p.Downloads parentOf c target known ↔ ¬ p.Misaligned c target known) :=
  ⟨fun _ _ _ _ _ hslot hrun hh honline => serves_of_run hslot hrun hh honline,
    fun _ _ h => ⟨fun _ _ _ hok => BlockProvider.segment_iff h hok,
      fun _ _ htarget hknown hne => BlockProvider.downloads_iff h htarget hknown hne⟩⟩

def Node.provider (n : Node) (size : Fin 8) : BlockProvider :=
  ⟨n.storage, size.val + 1, Nat.succ_pos _, by omega⟩

theorem fourBlocks_run :
    letI := Primitives.plain
    letI := HeaderPrimitives.plain
    ∃ evs n, Run Node.Step freshNode evs n ∧
      Hashed Nat.pred ⟨0, 0, 0, 0, []⟩ (engineEvents evs) ∧ (∃ pruned, .online pruned ∈ evs) ∧
      4 ∈ n.cryptarchia.consensus.branches.branches ∧ n.storage.immutableBlocksAfter 0 = 2 ∧
      (n.provider 1).findPath n.cryptarchia.consensus 4 [0] = .ok [0, 1, 2] ∧
      (n.provider 2).findPath n.cryptarchia.consensus 4 [1] = .ok [1, 2, 2, 3] ∧
      (n.provider 2).download n.cryptarchia.consensus 4 4 1 = .ok [2, 2, 3, 4] := by
  let _ := Primitives.plain
  let _ := HeaderPrimitives.plain
  have hok : ∀ {x : Except GetBlocksError (List Hash)} {l}, x.toOption = some l → x = .ok l := by
    rintro (_ | _) l h <;> cases h
    rfl
  obtain ⟨evs, n, hrun, hn⟩ := exists_run_of_exec (Node.execStep_step .ascending) (s := freshNode)
    (l := fourBlocks)
    (fun r => decide (Hashed Nat.pred ⟨0, 0, 0, 0, []⟩ (engineEvents r.1) ∧
      r.1.any (fun ev => match ev with | .online _ => true | _ => false) ∧
      4 ∈ r.2.cryptarchia.consensus.branches.branches ∧ r.2.storage.immutableBlocksAfter 0 = 2 ∧
      ((r.2.provider 1).findPath r.2.cryptarchia.consensus 4 [0]).toOption = some [0, 1, 2] ∧
      ((r.2.provider 2).findPath r.2.cryptarchia.consensus 4 [1]).toOption = some [1, 2, 2, 3] ∧
      ((r.2.provider 2).download r.2.cryptarchia.consensus 4 4 1).toOption = some [2, 2, 3, 4]))
    (a := true) (by decide +kernel)
  grind

theorem served_paths_iff_fourBlocks :
    letI := Primitives.plain
    letI := HeaderPrimitives.plain
    ∃ evs n, Run Node.Step freshNode evs n ∧
      (n.provider 1).findPath n.cryptarchia.consensus 4 [0] = .ok [0, 1, 2] ∧
      Segment Nat.pred [0] 4 3 [0, 1, 2] ∧
      (n.provider 1).Downloads Nat.pred n.cryptarchia.consensus 4 0 := by
  let _ := Primitives.plain
  let _ := HeaderPrimitives.plain
  obtain ⟨evs, n, hrun, hh, honline, hmem, hafter, hpath, -, -⟩ := fourBlocks_run
  obtain ⟨hruns, hserved⟩ := served_paths_iff Nat.pred 0
  have h : Serves Nat.pred 0 n.cryptarchia.consensus (n.provider 1).storage :=
    hruns _ _ _ evs n rfl hrun hh honline
  obtain ⟨hsegment, hdownload⟩ := hserved (n.provider 1) _ h
  have hslot : ∀ slot, (n.provider 1).storage.getImmutableBlockId slot = some 0 → slot = 0 :=
    fun slot hslot => h.slot_unique hslot h.genesis_indexed
  have hanc : Anc (parentLink Nat.pred) 0 4 :=
    (Path.of_isChain (l := [1, 2, 3, 4]) (b := 4) (by simp [Link, parentLink]) rfl).anc
  refine ⟨evs, n, hrun, hpath, (hsegment 4 [0] _ hpath).mpr ?_,
    (hdownload 4 0 (.inl hmem) hanc (by decide)).mpr ?_⟩
  · rintro ⟨-, -, -, k, hk, slot, hs, hlt⟩
    rw [mem_singleton.mp hk] at hs
    rw [hslot slot hs] at hlt
    have hfew : n.storage.immutableBlocksAfter 0 < 2 := hlt
    omega
  · rintro ⟨-, -, -, slot, hs, hdvd⟩
    rw [hslot slot hs] at hdvd
    have hodd : ¬ 2 ∣ n.storage.immutableBlocksAfter 0 := hdvd
    omega

/-- In batches of three a path holds the LIB twice, and a peer receives it twice. -/
theorem lib_served_twice :
    letI := Primitives.plain
    letI := HeaderPrimitives.plain
    ∃ evs n, Run Node.Step freshNode evs n ∧
      Serves Nat.pred 0 n.cryptarchia.consensus (n.provider 2).storage ∧
      (n.provider 2).findPath n.cryptarchia.consensus 4 [1] = .ok [1, 2, 2, 3] ∧
      ¬ Segment Nat.pred [1] 4 4 [1, 2, 2, 3] ∧
      (n.provider 2).download n.cryptarchia.consensus 4 4 1 = .ok [2, 2, 3, 4] := by
  let _ := Primitives.plain
  let _ := HeaderPrimitives.plain
  obtain ⟨evs, n, hrun, hh, honline, -, -, -, hseam, htwice⟩ := fourBlocks_run
  exact ⟨evs, n, hrun, serves_of_run rfl hrun hh honline, hseam,
    fun hseg => absurd hseg.nodup (by decide), htwice⟩

end Logos.Chain
