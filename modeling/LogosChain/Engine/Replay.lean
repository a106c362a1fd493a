import LogosChain.Engine.Finality

/-!
# Blocks replayed on the LIB

A node that restarts has a tree with the LIB alone and gives it the blocks of its chain. The tree
stays a line (`Line`). The LIB is within the `k` of its era below the last block, and so below every
earlier one: it stays.
-/

namespace Logos.Engine

open Base

variable {Id : Type} [DecidableEq Id]

/-- No ancestor of the parent is the block or records it as parent. -/
theorem Branches.Ok.ids_below {s : Branches Id} (hs : s.Ok) {b q x : Branch Id}
    (hq : s.par b = some q) (hx : Anc s.par x q) : x.id ≠ b.id ∧ x.parent ≠ b.id := by
  obtain ⟨hb, hqHas, -, hlength, -⟩ := hs.par_spec hq
  have hxHas := hs.anc_has hx hqHas
  have hle := hs.graded.height_le hx
  have hid : x.id ≠ b.id := by
    intro he
    rw [Branches.eq_of_id hxHas hb he] at hle
    omega
  refine ⟨hid, fun hpar => ?_⟩
  by_cases hlib : x.id = s.lib
  · rcases hs.root x hxHas hlib with hself | hout
    · exact hid (hself.symm.trans hpar)
    · exact hout (hpar ▸ hb.mem)
  · obtain ⟨p, hp, hpid, hplength, -⟩ := hs.up x hxHas hlib
    grind [eq_of_id]

namespace Cryptarchia

variable {c c' : Cryptarchia Id} {l b : Branch Id} {chain : List (Branch Id)}

/-- The tree is a line from the LIB `l` to the tip. -/
structure Line (c : Cryptarchia Id) (l : Branch Id) (chain : List (Branch Id)) : Prop where
  ok : c.Ok
  lib : l.id = c.lib
  path : Path c.branches.par l chain c.localChain
  has : ∀ b, c.branches.Has b → b ∈ l :: chain
  tips : c.branches.tips = {c.localChain.id}

theorem line_fromLib (id parent : Id) (eras : EraSchedule Config) (state : State)
    (slot length : Nat) (us : List Nat) :
    (fromLib id parent eras state slot length us).Line ⟨id, parent, slot, length, us⟩ [] where
  ok := fromLib_ok id parent eras state slot length us
  lib := rfl
  path := .nil
  has b hb := by
    rw [fromLib_has.mp hb]
    exact List.mem_singleton_self _
  tips := rfl

theorem updateLib_stays (ord : TipOrder Id) (hc : c.Ok) (hl : c.branches.Has l) (hlid : l.id = c.lib)
    (hk : c.state = .online → c.isBlockWithinK l = true) : c.updateLib ord = .ok (c, .new) := by
  have hlib : c.stateLib = .ok c.lib := by
    unfold stateLib
    cases hst : c.state with
    | bootstrapping => rfl
    | online =>
      -- the LIB is the first block that the search looks at
      obtain ⟨chain, hchain⟩ := Path.of_anc (hc.tree.lib_anc hl hlid hc.has)
      rw [hc.tree.libToTipBlocks_spec hc.has hlid hchain, List.find?_cons_of_pos (hk hst), ← hlid]
      rfl
  rw [updateLib, hlib]
  exact if_pos rfl

/-- A block on the tip of a line extends it, if the LIB stays within the `k` of its era. -/
theorem Line.receive (h : c.Line l chain) (hf : c.branches.Fresh b.id)
    (hpar : b.parent = c.localChain.id) (hlength : b.length = c.localChain.length + 1)
    (hslot : c.localChain.slot ≤ b.slot) (hfits : b.length < 2 ^ 64)
    (hk : c.state = .online → b.length - l.length ≤ c.kAt l.slot) (ord : TipOrder Id) :
    ∃ c' out, c.receiveBlock ord b.id b.parent b.slot b.uncleSlots = .ok (c', out) ∧
      c'.Line l (chain ++ [b]) ∧ c'.localChain = b ∧ c'.state = c.state ∧
      c'.eraSchedule = c.eraSchedule ∧ out.prunedBlocks = .new := by
  obtain ⟨s', happly, hadds⟩ := Branches.exists_applyHeader h.ok.has hpar hlength hslot hfits
  obtain ⟨mid, hadopt, ha⟩ := adopt_of_adds h.ok ord hf happly hadds
  have hmid := ha.ok h.ok hf
  have hl := h.ok.tree.anc_has h.path.anc h.ok.has
  have htips : mid.branches.tips = {b.id} := by
    rw [ha.adds.tips, h.tips, Finset.erase_singleton]
    rfl
  -- the block is the only tip
  have htip : mid.localChain = b := by
    have hid := hmid.tip
    rw [htips, Finset.mem_singleton] at hid
    exact Branches.eq_of_id hmid.has ha.adds.has_new hid
  have hlid : l.id = mid.lib := h.lib.trans ha.adds.lib.symm
  have hwithin : mid.state = .online → mid.isBlockWithinK l = true := by
    intro hst
    unfold isBlockWithinK kAt
    rw [htip, ha.eras]
    exact decide_eq_true (hk (ha.state ▸ hst))
  have hupdate := updateLib_stays ord hmid (ha.adds.has_old hf hl) hlid hwithin
  obtain ⟨reorged, newly, hchange, -⟩ := canonicalChange_spec hmid (ha.adds.has_old hf h.ok.has)
  refine ⟨mid, ⟨.new, reorged, newly⟩, ok_bind hadopt (ok_bind hchange (ok_bind hupdate rfl)),
    ⟨hmid, hlid, ?_, fun x hx => ?_, ?_⟩, htip, ha.state, ha.eras, rfl⟩
  · rw [htip]
    refine Path.snoc (h.path.mono fun x q hq => ?_) (ha.adds.par_new hf)
    rw [ha.adds.par_old hf (h.ok.tree.par_spec hq).1]
    exact hq
  · rcases ha.adds.has_iff.mp hx with rfl | ⟨-, hx⟩
    · grind
    · exact List.mem_append_left [b] (h.has x hx)
  · rw [htips, htip]

end Cryptarchia

end Logos.Engine
