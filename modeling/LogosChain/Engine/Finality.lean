import LogosChain.Engine.History

/-!
# Finality

The LIB only moves up, no later tip leaves it, and no reorg undoes a block at or below it; online,
it is at most `k` blocks below the tip, for the `k` of its own era. "Up" and
"below" are read off the history of the run, since the tree forgets what is below the LIB.
-/

namespace Logos.Engine

open Base

variable {Id : Type} [DecidableEq Id] {parentOf : Id → Id} {start : Branch Id}
  {evs evs' : List (Event Id)} {ev : Event Id}

namespace Cryptarchia

variable {c c' : Cryptarchia Id} {above : Id → Option Id}

/-! ## One step

`above` is a history that goes on from the present one: the links of the whole run. -/

section

variable (h : History parentOf start evs c)
include h

theorem History.lib_anc (hh : Hashed parentOf start evs)
    (hsub : ∀ i p, link parentOf evs i = some p → above i = some p) {b : Branch Id}
    (hb : c.branches.Has b) : Anc above c.lib b.id := by
  obtain ⟨l, hl, hlid⟩ := h.ok.tree.exists_lib
  have := (h.anc_link hh (h.ok.tree.lib_anc hl hlid hb)).mono hsub
  rwa [hlid] at this

/-- A block that leaves the local chain is not at or below the LIB. -/
theorem History.not_reorged (hh : Hashed parentOf start evs) {rank : Id → Nat}
    (hrank : Graded above rank) (hsub : ∀ i p, link parentOf evs i = some p → above i = some p)
    {old : Branch Id} {reorged newly : List Id} (hold : c.branches.Has old)
    (hr : c.Reports old reorged newly) {i : Id} (hi : i ∈ reorged) : ¬ Anc above i c.lib := by
  have hs := h.ok.tree
  obtain ⟨l, p₁, p₂, hlca, hp₁, -, rfl, -⟩ := hr.paths
  rw [List.mem_reverse, List.mem_map] at hi
  obtain ⟨b, hb, rfl⟩ := hi
  obtain ⟨hlb, hbo, hne⟩ := (hp₁.mem_iff hs.graded).mp hb
  have hbHas := hs.anc_has hbo hold
  intro hanc
  have hlib : b.id = c.lib := hrank.antisymm hanc (h.lib_anc hh hsub hbHas)
  have hbl := hlca.last b hbo (hs.lib_anc hbHas hlib h.ok.has)
  exact hne (hs.graded.antisymm hbl hlb)

theorem History.step_lib (hs : Step c ev c') (hh : Hashed parentOf start (evs ++ [ev]))
    {rank : Id → Nat} (hrank : Graded above rank)
    (hsub : ∀ i p, link parentOf (evs ++ [ev]) i = some p → above i = some p) :
    Anc above c.lib c'.lib ∧
      ∀ i p s out, ev = .received i p s out → ∀ x ∈ out.reorgedBlocks, ¬ Anc above x c.lib := by
  obtain ⟨ord, b, p, mid, r, out, rfl, hf, hr⟩ | ⟨i, e, rfl, rfl⟩ | ⟨r, pruned, rfl, hm⟩ :=
    hs.spec h.ok
  · have hmid := h.adopts hr.adopts hf rfl hh.last.1 hh
    have hup := hmid.lib_anc hh hsub hr.moves.has
    rw [← hr.moves.prunes.lib] at hup
    rw [show c.lib = mid.lib from hr.adopts.adds.lib.symm]
    refine ⟨hup, ?_⟩
    intro i q s out he x hx
    cases he
    exact hmid.not_reorged hh hrank hsub (hr.adopts.adds.has_old hf h.ok.has) hr.reports hx
  · exact ⟨.refl _, fun _ _ _ _ he => by cases he⟩
  · have hup := h.lib_anc hh.of_append (fun i p hi => hsub i p (link_append hi)) hm.has
    rw [← hm.prunes.lib] at hup
    exact ⟨hup, fun _ _ _ _ he => by cases he⟩

end

/-- Online, the LIB is within the `k` of its era. -/
def LibWithinK (c : Cryptarchia Id) : Prop :=
  c.state = .online → ∃ r, c.branches.Has r ∧ r.id = c.lib ∧ c.isBlockWithinK r = true

theorem Moves.libWithinK {r : Branch Id} {pruned : PrunedBlocks Id} (hm : c.Moves r c' pruned) :
    c'.LibWithinK := by
  intro hst
  refine ⟨r, hm.prunes.has_iff.mpr ⟨hm.has, .refl r⟩, hm.prunes.lib.symm, ?_⟩
  have := hm.within (hm.state.symm.trans hst)
  grind [isBlockWithinK, kAt, localChain, eras]

theorem Step.libWithinK (hs : Step c ev c') (hc : c.Ok) (hk : c.LibWithinK) : c'.LibWithinK := by
  obtain ⟨ord, b, p, mid, r, out, -, -, hr⟩ | ⟨i, e, -, rfl⟩ | ⟨r, pruned, -, hm⟩ := hs.spec hc
  · exact hr.moves.libWithinK
  · exact hk
  · exact hm.libWithinK

theorem History.run_lib {evs₁ evs₂ : List (Event Id)} (h : History parentOf start evs₁ c)
    (hrun : Run Step c evs₂ c') (hh : Hashed parentOf start (evs₁ ++ evs₂)) {rank : Id → Nat}
    (hrank : Graded above rank)
    (hsub : ∀ i p, link parentOf (evs₁ ++ evs₂) i = some p → above i = some p) :
    History parentOf start (evs₁ ++ evs₂) c' ∧ Anc above c.lib c'.lib ∧
      ∀ i p s out, .received i p s out ∈ evs₂ → ∀ x ∈ out.reorgedBlocks, ¬ Anc above x c.lib := by
  induction hrun with
  | nil => grind [Anc.refl]
  | snoc hrun hs ih =>
    grind [link_append, Hashed.of_append, step_lib, step, Anc.trans]

theorem run_libWithinK (hrun : Run Step c evs c') (hc : c.Ok) (hk : c.LibWithinK) :
    c'.Ok ∧ c'.LibWithinK ∧ c'.eraSchedule = c.eraSchedule :=
  hrun.invariant (I := fun d => d.Ok ∧ d.LibWithinK ∧ d.eraSchedule = c.eraSchedule)
    ⟨hc, hk, rfl⟩ fun _ _ _ ⟨h1, h2, h3⟩ hs =>
      ⟨hs.ok h1, hs.libWithinK h1 h2, (hs.eras h1).trans h3⟩

theorem fromLib_libWithinK (id parent : Id) (eras : EraSchedule Config) (state : State)
    (slot length : Nat) (us : List Nat) :
    (fromLib id parent eras state slot length us).LibWithinK := by
  intro _
  have hc := fromLib_ok id parent eras state slot length us
  exact ⟨_, hc.has, rfl, by simp [isBlockWithinK]⟩

end Cryptarchia

open Cryptarchia

/-- **Finality**: the LIB moves up, every later tip is above it, no block at or below it leaves the
local chain, and online its depth is within the `k` of its era. -/
theorem finality_of_run {id parent : Id} {eras : EraSchedule Config} {state : State}
    {slot length : Nat} {us : List Nat} {evs₁ evs₂ : List (Event Id)} {c₁ c₂ : Cryptarchia Id}
    (hrun₁ : Run Step (fromLib id parent eras state slot length us) evs₁ c₁)
    (hrun₂ : Run Step c₁ evs₂ c₂)
    (hh : Hashed parentOf ⟨id, parent, slot, length, us⟩ (evs₁ ++ evs₂)) :
    Anc (link parentOf (evs₁ ++ evs₂)) c₁.lib c₂.lib ∧
    Anc (link parentOf (evs₁ ++ evs₂)) c₁.lib c₂.tip ∧
    (∀ i p s out, .received i p s out ∈ evs₂ → ∀ x ∈ out.reorgedBlocks,
      ¬ Anc (link parentOf (evs₁ ++ evs₂)) x c₁.lib) ∧
    (c₂.state = .online → ∃ r d, c₂.branches.Has r ∧ r.id = c₂.lib ∧ c₂.libDepth = .ok d ∧
      d ≤ (eras.atSlot r.slot).parameters.securityParam) := by
  obtain ⟨rank, hrank⟩ := (history_of_run (hrun₁.append hrun₂) hh).graded
  obtain ⟨hist, hup, hno⟩ :=
    (history_of_run hrun₁ hh.of_append).run_lib hrun₂ hh hrank fun _ _ h => h
  refine ⟨hup, hup.trans (hist.lib_anc hh (fun _ _ h => h) hist.ok.has), hno, fun hst => ?_⟩
  obtain ⟨hc, hk, heras⟩ := run_libWithinK (hrun₁.append hrun₂)
    (fromLib_ok id parent eras state slot length us)
    (fromLib_libWithinK id parent eras state slot length us)
  obtain ⟨r, hr, hrid, hwithin⟩ := hk hst
  refine ⟨r, _, hr, hrid, hc.libDepth_eq hr hrid, ?_⟩
  simpa only [isBlockWithinK, kAt, heras, decide_eq_true_eq, fromLib] using hwithin

/-- A run that reorgs and prunes. -/
theorem finality_of_forked_run : ∃ evs c, Run Step (sample 0 .bootstrapping) evs c ∧
    (c.lib, c.tip) = (5, 6) ∧ Anc (link (fun i => [0, 0, 1, 0, 2, 2, 5].getD i 0) evs) 0 6 := by
  obtain ⟨evs, c, hrun, hc⟩ := exists_run .ascending (sample 0 .bootstrapping)
    [.block 1 0 1, .block 2 1 2, .block 3 0 3, .block 4 2 4, .online, .block 5 2 5, .block 6 5 6,
      .block 7 9 9]
    (fun r => ((r.2.lib, r.2.tip), decide (Hashed (fun i => [0, 0, 1, 0, 2, 2, 5].getD i 0)
      ⟨0, 0, 0, 0, []⟩ r.1))) (a := ((5, 6), true)) (by decide)
  obtain ⟨hc, hh⟩ := Prod.mk.inj hc
  have h0 : Run Step (sample 0 .bootstrapping) [] (sample 0 .bootstrapping) := .nil _
  obtain ⟨-, htip, -⟩ := finality_of_run h0 hrun (of_decide_eq_true hh)
  rw [(Prod.mk.inj hc).2] at htip
  exact ⟨evs, c, hrun, hc, htip⟩

end Logos.Engine
