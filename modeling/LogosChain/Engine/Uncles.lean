import LogosChain.Base.FirstOf
import LogosChain.Engine.Run
import Mathlib.Data.Prod.Lex

/-!
# Selection of uncles (`consensus/cryptarchia-engine/src/lib.rs`, `select_uncles`)

A block may reference blocks that left the chain it extends within the uncle reference window. The
selection takes one fork for each slot that is free, those with the oldest parents first. The walks
visit every block that fulfils the rules (`UncleRules`), so the order of the tips does not show.
-/

namespace Logos.Engine

open Base List

variable {Id : Type}

namespace Branches

section

variable [DecidableEq Id] (s : Branches Id)

/-- The blocks from `b` back, as long as the condition holds. -/
def walkBackWhile (cond : Branch Id → Bool) (b : Branch Id) : List (Branch Id) :=
  go (b.length + 1) (some b)
where
  go : Nat → Option (Branch Id) → List (Branch Id)
    | 0, _ => []
    | _ + 1, none => []
    | n + 1, some b => if cond b then b :: go n (s.parent b) else []

/-- The chain within the window, and the slots it and its uncles take. -/
def collectChainWithinWindow (parent : Branch Id) (windowStart : Nat) : Map Id Nat × Finset Nat :=
  let chain := s.walkBackWhile (fun block => windowStart ≤ block.slot) parent
  (chain.foldl (fun ancestors block => ancestors.insert block.id block.slot) ∅,
    (chain.flatMap fun block =>
      block.slot :: block.uncleSlots.filter (windowStart ≤ ·)).toFinset)

/-- A visited block with the slot of its parent, if it can be an uncle. -/
def uncleCandidate (slot : Nat) (ancestors : Map Id Nat) (occupiedSlots : Finset Nat)
    (block : Branch Id) : Option (Nat × Branch Id) :=
  if block.slot < slot ∧ block.slot ∉ occupiedSlots then
    (ancestors.lookup block.parent).map fun parentSlot => (parentSlot, block)
  else none

/-- The first blocks of the forks that can be uncles. -/
def uncleCandidates (ord : TipOrder Id) (slot windowStart : Nat) (ancestors : Map Id Nat)
    (occupiedSlots : Finset Nat) : Except (Failure Id) (List (Nat × Branch Id)) := do
  let tips ← s.tipBranches ord
  pure (tips.flatMap fun tip =>
    (s.walkBackWhile (fun block => windowStart ≤ block.slot ∧ block.id ∉ ancestors) tip).filterMap
      (uncleCandidate slot ancestors occupiedSlots))

end

end Branches

/-- Candidates are sorted by the parent's slot, the slot and the id. -/
def uncleKey [LinearOrder Id] (candidate : Nat × Branch Id) : Nat ×ₗ Nat ×ₗ Id :=
  toLex (candidate.1, toLex (candidate.2.slot, candidate.2.id))

namespace Cryptarchia

section

variable [DecidableEq Id] (c : Cryptarchia Id) (parent : Branch Id) (slot : Nat)

/-- The first slot of the uncle reference window. -/
def windowStart : Nat :=
  slot - (c.eraSchedule.atSlot slot).parameters.uncleReferenceWindowInSlot

/-- The rules for the place of an uncle of a block on `parent`. -/
structure UncleRules (uncle : Branch Id) : Prop where
  older : uncle.slot < slot
  /-- The era of the block has begun by the slot of the uncle. -/
  sameEra : (c.eraSchedule.atSlot slot).firstSlot ≤ uncle.slot
  offChain : ¬ Anc c.branches.par uncle parent
  parentOnChain : ∃ p, Anc c.branches.par p parent ∧ p.id = uncle.parent ∧ c.windowStart slot ≤ p.slot

/-- No ancestor within the window, nor an uncle of one, has the slot. -/
def Unoccupied (uncleSlot : Nat) : Prop :=
  ∀ a, Anc c.branches.par a parent → c.windowStart slot ≤ a.slot →
    uncleSlot ≠ a.slot ∧ uncleSlot ∉ a.uncleSlots

end

variable [LinearOrder Id] (c : Cryptarchia Id) (parent : Branch Id) (slot : Nat)

/-- The uncles for a block. No two candidates have one key. -/
def selectUncles (ord : TipOrder Id) : Except (Failure Id) (List (Branch Id)) := do
  let era := c.eraSchedule.atSlot slot
  let windowStart := slot - era.parameters.uncleReferenceWindowInSlot
  let (ancestors, occupiedSlots) := c.branches.collectChainWithinWindow parent windowStart
  let candidates ← c.branches.uncleCandidates ord slot windowStart ancestors occupiedSlots
  let candidates := (candidates.filter fun candidate => era.firstSlot ≤ candidate.2.slot).insertionSort
    fun a b => uncleKey a ≤ uncleKey b
  pure (((firstOf (·.2.slot) [] candidates).take era.parameters.maxUncles).map (·.2))

end Cryptarchia

/-! ## Walks -/

namespace Branches.Ok

variable [DecidableEq Id] {s : Branches Id} {windowStart : Nat} {parent : Branch Id}

/-- The walk visits the ancestors that are reached without leaving the condition. -/
theorem mem_walkBackWhile (hs : s.Ok) {cond : Branch Id → Bool} {b x : Branch Id} (hb : s.Has b) :
    x ∈ s.walkBackWhile cond b ↔
      Anc s.par x b ∧ ∀ y, Anc s.par x y → Anc s.par y b → cond y = true := by
  have hgo : ∀ n b, s.Has b → b.length < n → (x ∈ walkBackWhile.go s cond n (some b) ↔
      Anc s.par x b ∧ ∀ y, Anc s.par x y → Anc s.par y b → cond y = true) := by
    intro n
    induction n with
    | zero => intro b _ hn; omega
    | succ n ih =>
      intro b hb hn
      rw [walkBackWhile.go]
      by_cases hcond : cond b = true
      · rw [if_pos hcond, mem_cons]
        constructor
        · rintro (rfl | hx)
          · grind [Anc.refl, Graded.antisymm, graded]
          · cases hp : s.parent b with
            | none =>
              rw [hp] at hx
              cases n <;> cases hx
            | some p =>
              grind [par_of_has, Anc.iff_of_parent, par_spec]
        · rintro ⟨hxb, hall⟩
          rcases hxb.cases_parent with rfl | ⟨p, hp, hxp⟩
          · exact .inl rfl
          · grind [par_of_has, par_spec, Anc.step]
      · grind [Anc.refl]
  exact hgo _ b hb (Nat.lt_succ_self _)

/-- The walk within a window visits the ancestors in it. -/
theorem mem_walkBackWhile_window (hs : s.Ok) {b x : Branch Id} (hb : s.Has b) :
    x ∈ s.walkBackWhile (fun block => windowStart ≤ block.slot) b ↔
      Anc s.par x b ∧ windowStart ≤ x.slot := by
  grind [mem_walkBackWhile, Anc.refl, LE.le.trans, slot_le]

/-! ## The chain of the parent -/

theorem lookup_ancestors (hs : s.Ok) {i : Id} {n : Nat} (hp : s.Has parent) :
    (s.collectChainWithinWindow parent windowStart).1.lookup i = some n ↔
      ∃ a, Anc s.par a parent ∧ windowStart ≤ a.slot ∧ a.id = i ∧ a.slot = n := by
  have hchain : ∀ a ∈ s.walkBackWhile (fun block => windowStart ≤ block.slot) parent, s.Has a :=
    fun a ha => hs.anc_has ((hs.mem_walkBackWhile_window hp).mp ha).1 hp
  have hsame : ∀ a ∈ s.walkBackWhile (fun block => windowStart ≤ block.slot) parent,
      ∀ b ∈ s.walkBackWhile (fun block => windowStart ≤ block.slot) parent,
        a.id = b.id → a.slot = b.slot := by grind [eq_of_id]
  rw [collectChainWithinWindow, Map.lookup_foldl_insert_of_eq hsame]
  simp only [hs.mem_walkBackWhile_window hp, and_assoc]

theorem mem_ancestors (hs : s.Ok) {i : Id}
    (hp : s.Has parent) : i ∈ (s.collectChainWithinWindow parent windowStart).1 ↔
      ∃ a, Anc s.par a parent ∧ windowStart ≤ a.slot ∧ a.id = i := by
  rw [Finmap.mem_iff]
  simp only [hs.lookup_ancestors hp]
  simp_all

theorem mem_occupiedSlots (hs : s.Ok) {n : Nat}
    (hp : s.Has parent) : n ∈ (s.collectChainWithinWindow parent windowStart).2 ↔
      ∃ a, Anc s.par a parent ∧ windowStart ≤ a.slot ∧
        (n = a.slot ∨ n ∈ a.uncleSlots ∧ windowStart ≤ n) := by
  simp only [collectChainWithinWindow, mem_toFinset, mem_flatMap,
    hs.mem_walkBackWhile_window hp, mem_cons, mem_filter, decide_eq_true_eq, and_assoc]

/-! ## Candidates -/

theorem uncleCandidate_some {slot : Nat} {ancestors : Map Id Nat} {occupiedSlots : Finset Nat}
    {block : Branch Id} {e : Nat × Branch Id} :
    uncleCandidate slot ancestors occupiedSlots block = some e ↔
      e.2 = block ∧ block.slot < slot ∧ block.slot ∉ occupiedSlots ∧
        ancestors.lookup block.parent = some e.1 := by
  unfold uncleCandidate
  split
  · grind [Option.map_eq_some_iff]
  · grind

/-- A block off a chain, recording a block on it, has it as its parent. -/
theorem par_of_first (hs : s.Ok) {u p : Branch Id} (hp : s.Has parent) (hu : s.Has u)
    (hoff : ¬ Anc s.par u parent) (hpa : Anc s.par p parent) (hid : p.id = u.parent) :
    s.par u = some p := by
  have hlib : u.id ≠ s.lib := fun h => hoff (hs.lib_anc hu h hp)
  obtain ⟨q, hq, hqHas, hqid, -⟩ := hs.exists_par hu hlib
  rw [hq, eq_of_id hqHas (hs.anc_has hpa hp) (hqid.trans hid.symm)]

/-- The walk from a tip gets to every block off the chain whose parent is in the window. -/
theorem mem_walk_of_first (hs : s.Ok) {u p t : Branch Id} (hp : s.Has parent) (ht : s.Has t)
    (hut : Anc s.par u t) (hoff : ¬ Anc s.par u parent) (hpa : Anc s.par p parent)
    (hid : p.id = u.parent) (hwindow : windowStart ≤ p.slot) :
    u ∈ s.walkBackWhile (fun block => windowStart ≤ block.slot ∧
      block.id ∉ (s.collectChainWithinWindow parent windowStart).1) t := by
  have hpar := hs.par_of_first hp (hs.anc_has hut ht) hoff hpa hid
  rw [hs.mem_walkBackWhile ht]
  refine ⟨hut, fun y huy hyt => ?_⟩
  rw [decide_eq_true_eq]
  constructor
  · exact hwindow.trans (hs.slot_le ((Anc.of_parent hpar).trans huy))
  · -- A block of the chain has all its ancestors on the chain.
    intro hmem
    obtain ⟨a, ha, -, haid⟩ := (hs.mem_ancestors hp).mp hmem
    have hay := eq_of_id (hs.anc_has ha hp) (hs.anc_has hyt ht) haid
    exact hoff (huy.trans (hay ▸ ha))

end Branches.Ok

namespace Cryptarchia

section

variable [DecidableEq Id] {c : Cryptarchia Id} {parent : Branch Id} {slot : Nat}

/-- The candidates that the walks from all tips find. -/
def candidateList (c : Cryptarchia Id) (parent : Branch Id) (slot : Nat) (ord : TipOrder Id) :
    List (Nat × Branch Id) :=
  (c.branches.tipList ord).flatMap fun tip =>
    (c.branches.walkBackWhile (fun block => c.windowStart slot ≤ block.slot ∧
      block.id ∉ (c.branches.collectChainWithinWindow parent (c.windowStart slot)).1) tip).filterMap
      (Branches.uncleCandidate slot
        (c.branches.collectChainWithinWindow parent (c.windowStart slot)).1
        (c.branches.collectChainWithinWindow parent (c.windowStart slot)).2)

/-- The candidates fulfil the rules but for the era, on free slots. -/
theorem mem_candidateList (hs : c.branches.Ok) (hp : c.branches.Has parent) {ord : TipOrder Id}
    {e : Nat × Branch Id} :
    e ∈ c.candidateList parent slot ord ↔
      c.branches.Has e.2 ∧ e.2.slot < slot ∧ ¬ Anc c.branches.par e.2 parent ∧
        c.Unoccupied parent slot e.2.slot ∧
        ∃ p, Anc c.branches.par p parent ∧ p.id = e.2.parent ∧ c.windowStart slot ≤ p.slot ∧
          p.slot = e.1 := by
  simp only [candidateList, mem_flatMap, mem_filterMap,
    Branches.Ok.uncleCandidate_some, hs.mem_tipList]
  constructor
  · rintro ⟨t, ⟨ht, -⟩, u, hu, rfl, hslot, hfree, hlookup⟩
    obtain ⟨hut, hall⟩ := (hs.mem_walkBackWhile ht).mp hu
    have hself := hall e.2 (.refl _) hut
    rw [decide_eq_true_eq] at hself
    obtain ⟨p, hpa, hwindow, hpid, hpslot⟩ := (hs.lookup_ancestors hp).mp hlookup
    refine ⟨hs.anc_has hut ht, hslot, fun hon => ?_, fun a ha haw => ?_,
      p, hpa, hpid, hwindow, hpslot⟩
    · grind [Branches.Ok.mem_ancestors]
    · grind [Branches.Ok.mem_occupiedSlots]
  · rintro ⟨hu, hslot, hoff, hfree, p, hpa, hpid, hwindow, hpslot⟩
    obtain ⟨t, ht, htip, hut⟩ := hs.below e.2 hu
    refine ⟨t, ⟨ht, htip⟩, e.2, hs.mem_walk_of_first hp ht hut hoff hpa hpid hwindow, rfl, hslot,
      fun hocc => ?_, (hs.lookup_ancestors hp).mpr ⟨p, hpa, hwindow, hpid, hpslot⟩⟩
    obtain ⟨a, ha, haw, h | ⟨h, -⟩⟩ := (hs.mem_occupiedSlots hp).mp hocc
    · exact (hfree a ha haw).1 h
    · exact (hfree a ha haw).2 h

/-- The candidates do not depend on the order of the tips. -/
theorem candidateList_perm (ord ord' : TipOrder Id) :
    (c.candidateList parent slot ord).Perm (c.candidateList parent slot ord') := by
  have htips : (ord.enumerate c.branches.tips).Perm (ord'.enumerate c.branches.tips) := by
    grind [TipOrder.nodup, TipOrder.mem]
  exact (htips.filterMap _).flatMap_right _

end

/-! ## The selection -/

variable [LinearOrder Id] {c : Cryptarchia Id} {parent : Branch Id} {slot : Nat}

/-- The candidates of the era in the order in which they are taken. -/
def sortedCandidates (c : Cryptarchia Id) (parent : Branch Id) (slot : Nat) (ord : TipOrder Id) :
    List (Nat × Branch Id) :=
  ((c.candidateList parent slot ord).filter fun candidate =>
    (c.eraSchedule.atSlot slot).firstSlot ≤ candidate.2.slot).insertionSort
    fun a b => uncleKey a ≤ uncleKey b

theorem selectUncles_eq (hs : c.branches.Ok) (ord : TipOrder Id) :
    c.selectUncles parent slot ord =
      .ok (((firstOf (·.2.slot) [] (c.sortedCandidates parent slot ord)).take
        (c.eraSchedule.atSlot slot).parameters.maxUncles).map (·.2)) := by
  unfold selectUncles Branches.uncleCandidates
  rw [hs.tipBranches_eq ord]
  rfl

theorem pairwise_sortedCandidates (ord : TipOrder Id) :
    (c.sortedCandidates parent slot ord).Pairwise fun a b => uncleKey a ≤ uncleKey b := by
  exact pairwise_insertionSort _ _

/-- A sorted candidate satisfies the rules, on a free slot. -/
theorem mem_sortedCandidates (hs : c.branches.Ok) (hp : c.branches.Has parent) {ord : TipOrder Id}
    {e : Nat × Branch Id} :
    e ∈ c.sortedCandidates parent slot ord ↔
      c.branches.Has e.2 ∧ c.UncleRules parent slot e.2 ∧ c.Unoccupied parent slot e.2.slot ∧
        ∃ p, c.branches.par e.2 = some p ∧ p.slot = e.1 := by
  rw [sortedCandidates, mem_insertionSort, mem_filter, mem_candidateList hs hp, decide_eq_true_eq]
  constructor
  · rintro ⟨⟨hu, hslot, hoff, hfree, p, hpa, hpid, hwindow, hpslot⟩, hera⟩
    exact ⟨hu, ⟨hslot, hera, hoff, p, hpa, hpid, hwindow⟩, hfree, p,
      hs.par_of_first hp hu hoff hpa hpid, hpslot⟩
  · rintro ⟨hu, hrules, hfree, q, hq, hqslot⟩
    obtain ⟨p, hpa, hpid, hwindow⟩ := hrules.parentOnChain
    have hpq := hs.par_of_first hp hu hrules.offChain hpa hpid
    rw [hq] at hpq
    cases hpq
    exact ⟨⟨hu, hrules.older, hrules.offChain, hfree, q, hpa, hpid, hwindow, hqslot⟩,
      hrules.sameEra⟩

theorem eq_of_uncleKey {a b : Nat × Branch Id} (ha : c.branches.Has a.2) (hb : c.branches.Has b.2)
    (h : uncleKey a = uncleKey b) : a = b := by
  obtain ⟨h1, h2⟩ := Prod.mk.inj (toLex.injective h)
  grind [Branches.eq_of_id, Equiv.injective]

theorem sortedCandidates_eq (hs : c.branches.Ok) (hp : c.branches.Has parent)
    (ord ord' : TipOrder Id) :
    c.sortedCandidates parent slot ord = c.sortedCandidates parent slot ord' := by
  apply List.Perm.eq_of_pairwise _ (pairwise_sortedCandidates ord) (pairwise_sortedCandidates ord')
  · have hperm : ((c.candidateList parent slot ord).filter fun candidate =>
        (c.eraSchedule.atSlot slot).firstSlot ≤ candidate.2.slot).Perm
        ((c.candidateList parent slot ord').filter fun candidate =>
          (c.eraSchedule.atSlot slot).firstSlot ≤ candidate.2.slot) :=
      (candidateList_perm ord ord').filter _
    exact (perm_insertionSort _ _).trans (hperm.trans (perm_insertionSort _ _).symm)
  · intro a b ha hb hab hba
    grind [eq_of_uncleKey, mem_sortedCandidates]

/-- `v` is taken before `u`. -/
def TakenBefore (c : Cryptarchia Id) (v u : Branch Id) : Prop :=
  ∃ p q, c.branches.par v = some p ∧ c.branches.par u = some q ∧
    uncleKey (p.slot, v) < uncleKey (q.slot, u)

/-- What the selection gives for a block at the slot on `parent`. -/
structure SelectsUncles (c : Cryptarchia Id) (parent : Branch Id) (slot : Nat)
    (uncles : List (Branch Id)) : Prop where
  count : uncles.length ≤ (c.eraSchedule.atSlot slot).parameters.maxUncles
  slots : (uncles.map (·.slot)).Nodup
  valid : ∀ u ∈ uncles, c.branches.Has u ∧ c.UncleRules parent slot u ∧
    c.Unoccupied parent slot u.slot
  /-- A block that the rules allow on a free slot is selected, or another one is for its slot, or as
  many others before it as there may be. -/
  complete : ∀ u, c.branches.Has u → c.UncleRules parent slot u → c.Unoccupied parent slot u.slot →
    u ∈ uncles ∨ (∃ v ∈ uncles, v.slot = u.slot ∧ c.TakenBefore v u) ∨
      (uncles.length = (c.eraSchedule.atSlot slot).parameters.maxUncles ∧
        ∀ v ∈ uncles, c.TakenBefore v u)

variable (hs : c.branches.Ok) (hp : c.branches.Has parent)
include hs hp

/-- An entry that comes before the entry of another block is taken before it. -/
theorem takenBefore_of_le {ord : TipOrder Id} {a b : Nat × Branch Id}
    (ha : a ∈ c.sortedCandidates parent slot ord) (hb : b ∈ c.sortedCandidates parent slot ord)
    (hle : uncleKey a ≤ uncleKey b) (hne : a.2 ≠ b.2) : c.TakenBefore a.2 b.2 := by
  obtain ⟨haHas, -, -, p, hp1, hp2⟩ := (mem_sortedCandidates hs hp).mp ha
  obtain ⟨hbHas, -, -, q, hq1, hq2⟩ := (mem_sortedCandidates hs hp).mp hb
  refine ⟨p, q, hp1, hq1, ?_⟩
  grind [eq_of_uncleKey]

theorem selectsUncles_taken (ord : TipOrder Id) :
    c.SelectsUncles parent slot (((firstOf (·.2.slot) [] (c.sortedCandidates parent slot ord)).take
      (c.eraSchedule.atSlot slot).parameters.maxUncles).map (·.2)) := by
  have hmem : ∀ e ∈ (firstOf (·.2.slot) [] (c.sortedCandidates parent slot ord)).take
      (c.eraSchedule.atSlot slot).parameters.maxUncles, e ∈ c.sortedCandidates parent slot ord :=
    fun e he => (firstOf_sublist _ _ _).subset (mem_of_mem_take he)
  constructor
  case count =>
    rw [length_map]
    exact length_take_le _ _
  case slots =>
    grind [nodup_firstOf]
  case valid =>
    grind [mem_sortedCandidates]
  case complete =>
    intro u hu hrules hfree
    obtain ⟨p, hpa, hpid, -⟩ := hrules.parentOnChain
    have hpar := hs.par_of_first hp hu hrules.offChain hpa hpid
    have hentry : (p.slot, u) ∈ c.sortedCandidates parent slot ord :=
      (mem_sortedCandidates hs hp).mpr ⟨hu, hrules, hfree, p, hpar, rfl⟩
    have hrefl : ∀ e : Nat × Branch Id, uncleKey e ≤ uncleKey e := fun e => le_refl _
    have htrans : ∀ a b d : Nat × Branch Id, uncleKey a ≤ uncleKey b → uncleKey b ≤ uncleKey d →
        uncleKey a ≤ uncleKey d := fun a b d => le_trans
    rcases taken_or_cut (fun e : Nat × Branch Id => e.2.slot) hrefl htrans
      (pairwise_sortedCandidates ord) hentry (c.eraSchedule.atSlot slot).parameters.maxUncles with
      ⟨e, he, hslot, hle⟩ | ⟨hlen, hall⟩
    · by_cases heu : e.2 = u
      · exact .inl (mem_map.mpr ⟨e, he, heu⟩)
      · exact .inr (.inl ⟨e.2, mem_map.mpr ⟨e, he, rfl⟩, hslot,
          takenBefore_of_le hs hp (hmem e he) hentry hle heu⟩)
    · by_cases hsel : u ∈ ((firstOf (·.2.slot) [] (c.sortedCandidates parent slot ord)).take
          (c.eraSchedule.atSlot slot).parameters.maxUncles).map (·.2)
      · exact .inl hsel
      · refine .inr (.inr ⟨by rw [length_map, hlen], fun v hv => ?_⟩)
        obtain ⟨e, he, rfl⟩ := mem_map.mp hv
        exact takenBefore_of_le hs hp (hmem e he) hentry (hall e he)
          fun h => hsel ((show e.2 = u from h) ▸ hv)

/-- **The selection is the same for every order of the tips**, and gives what it should. -/
theorem selectUncles_spec (slot : Nat) :
    ∃ uncles, (∀ ord, c.selectUncles parent slot ord = .ok uncles) ∧
      c.SelectsUncles parent slot uncles := by
  let some : TipOrder Id := ⟨Finset.toList, Finset.nodup_toList, fun _ _ => Finset.mem_toList⟩
  refine ⟨_, fun ord => ?_, selectsUncles_taken hs hp some⟩
  rw [selectUncles_eq hs, sortedCandidates_eq hs hp ord some]

end Cryptarchia

end Logos.Engine
