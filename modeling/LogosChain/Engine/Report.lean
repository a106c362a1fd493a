import LogosChain.Engine.Run

/-!
# The report of a canonical change

A received block may take blocks off the local chain and put others on it. The two lists that
`receive_block` reports are the sides of the fork between the old and the new chain.
-/

namespace Logos.Engine

open Base

variable {Id : Type} [DecidableEq Id]

namespace Cryptarchia

variable {c c' mid : Cryptarchia Id} {old : Branch Id} {reorged newly : List Id}

/-- The ids of the blocks from the LIB to the tip. -/
def chainIds (c : Cryptarchia Id) : List Id :=
  (c.branches.libToTipBlocks c.localChain).map (·.id)

/-- Adding a block does not change the chain from the LIB. -/
theorem Adopts.libToTipBlocks_old {ord : TipOrder Id} {p b : Branch Id} (ha : c.Adopts ord p b mid)
    (hc : c.Ok) (hf : c.branches.Fresh b.id) :
    mid.branches.libToTipBlocks c.localChain = c.branches.libToTipBlocks c.localChain := by
  obtain ⟨r, hr, hrid⟩ := hc.tree.exists_lib
  obtain ⟨l, hl⟩ := Path.of_anc (hc.tree.lib_anc hr hrid hc.has)
  have hl' : Path mid.branches.par r l c.localChain := hl.mono fun x q hx => by
    rw [ha.adds.par_old hf (hc.tree.par_spec hx).1, hx]
  rw [hc.tree.libToTipBlocks_spec hc.has hrid hl, (ha.ok hc hf).tree.libToTipBlocks_spec
    (ha.adds.has_old hf hc.has) (hrid.trans ha.adds.lib.symm) hl']

section

variable (hr : c.Reports old reorged newly) (hc : c.Ok) (ho : c.branches.Has old)
include hr hc ho

/-- The two chains of a report: a common part up to the last common ancestor, then its lists. -/
theorem Reports.chains :
    ∃ pre, (c.branches.libToTipBlocks old).map (·.id) = pre ++ reorged.reverse ∧
      c.chainIds = pre ++ newly := by
  obtain ⟨l, p₁, p₂, hlca, hp₁, hp₂, rfl, rfl⟩ := hr.paths
  obtain ⟨r, hrHas, hrid⟩ := hc.tree.exists_lib
  have hl := hc.tree.anc_has hlca.left ho
  obtain ⟨q, hq⟩ := Path.of_anc (hc.tree.lib_anc hrHas hrid hl)
  refine ⟨(r :: q).map (·.id), ?_, ?_⟩
  · rw [hc.tree.libToTipBlocks_spec ho hrid (hq.append hp₁), List.reverse_reverse,
      ← List.map_append, List.cons_append]
  · rw [chainIds, hc.tree.libToTipBlocks_spec hc.has hrid (hq.append hp₂), ← List.map_append,
      List.cons_append]

theorem Reports.disjoint : reorged.Disjoint newly := by
  obtain ⟨l, p₁, p₂, hlca, hp₁, hp₂, rfl, rfl⟩ := hr.paths
  have hg := hc.tree.graded
  intro i h₁ h₂
  rw [List.mem_reverse] at h₁
  obtain ⟨x, hx, rfl⟩ := List.mem_map.mp h₁
  obtain ⟨y, hy, he⟩ := List.mem_map.mp h₂
  have hxHas := hc.tree.anc_has ((hp₁.mem_iff hg).mp hx).2.1 ho
  have hyHas := hc.tree.anc_has ((hp₂.mem_iff hg).mp hy).2.1 hc.has
  exact hlca.disjoint hg hp₁ hp₂ hx (Branches.eq_of_id hyHas hxHas he ▸ hy)

/-- Both lists are empty exactly if the tip did not change. -/
theorem Reports.nil_iff : reorged = [] ∧ newly = [] ↔ c.tip = old.id := by
  obtain ⟨l, p₁, p₂, hlca, hp₁, hp₂, rfl, rfl⟩ := hr.paths
  rw [List.reverse_eq_nil_iff, List.map_eq_nil_iff, List.map_eq_nil_iff,
    hlca.nil_iff hc.tree.graded hp₁ hp₂]
  exact ⟨fun h => by rw [h]; rfl, fun h => Branches.eq_of_id ho hc.has h.symm⟩

end

/-- **The report of a received block.** `mid` is the engine before the LIB moves. -/
theorem canonicalChange_of_receive {id parent : Id} {eras : EraSchedule Config} {state : State}
    {slot length : Nat} {us : List Nat} {evs : List (Event Id)} {ord : TipOrder Id} {i p : Id}
    {s : Nat} {us' : List Nat} {out : ReceiveBlockOutcome Id}
    (hrun : Run Step (fromLib id parent eras state slot length us) evs c) (hf : c.branches.Fresh i)
    (hrec : c.receiveBlock ord i p s us' = .ok (c', out)) :
    ∃ mid pre, c.adopt ord i p s us' = .ok mid ∧ mid.lib = c.lib ∧ mid.tip = c'.tip ∧
      c.chainIds = pre ++ out.reorgedBlocks.reverse ∧
      mid.chainIds = pre ++ out.newlyCanonicalBlocks ∧
      out.reorgedBlocks.Disjoint out.newlyCanonicalBlocks ∧
      (out.reorgedBlocks = [] ∧ out.newlyCanonicalBlocks = [] ↔ c'.tip = c.tip) := by
  have hc := run_ok hrun (fromLib_ok id parent eras state slot length us)
  obtain ⟨b, q, mid, r, hr, rfl, rfl, rfl, hmid⟩ := receiveBlock_ok hc hf hrec
  have hmidOk := hr.adopts.ok hc hf
  have hold := hr.adopts.adds.has_old hf hc.has
  have htip : mid.tip = c'.tip := congrArg Branch.id hr.moves.localChain.symm
  obtain ⟨pre, ho, hn⟩ := hr.reports.chains hmidOk hold
  rw [hr.adopts.libToTipBlocks_old hc hf] at ho
  exact ⟨mid, pre, hmid, hr.adopts.adds.lib, htip, ho, hn, hr.reports.disjoint hmidOk hold,
    htip ▸ hr.reports.nil_iff hmidOk hold⟩

/-- A reorg from the chain of 2 to the chain of 4. -/
theorem canonicalChange_of_reorg : ∃ c₁ c₂ mid : Cryptarchia Nat, ∃ out pre,
    c₁.receiveBlock .ascending 5 4 6 [] = .ok (c₂, out) ∧ (c₁.tip, c₂.tip) = (2, 5) ∧
    c₁.adopt .ascending 5 4 6 [] = .ok mid ∧ c₁.chainIds = pre ++ out.reorgedBlocks.reverse ∧
    mid.chainIds = pre ++ out.newlyCanonicalBlocks := by
  obtain ⟨evs, c₁, c₂, out, hrun, hf, hrec, hc⟩ := exists_received .ascending
    (sample 1 .bootstrapping) [.block 1 0 1, .block 2 1 2, .block 3 0 3, .block 4 3 5] 5 4 6
    (fun r => (r.2.1.tip, r.2.2.tip)) (a := (2, 5)) (by decide)
  obtain ⟨mid, pre, hmid, -, -, ho, hn, -⟩ := canonicalChange_of_receive hrun hf hrec
  exact ⟨c₁, c₂, mid, out, pre, hrec, hc, hmid, ho, hn⟩

end Cryptarchia

end Logos.Engine
