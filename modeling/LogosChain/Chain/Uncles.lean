import LogosChain.Chain.Cryptarchia
import LogosChain.Engine.Uncles
import LogosChain.Time.Schedule

/-!
# What a leader selects as uncles, every node accepts

The leader puts the headers of the uncles that the engine selects into its block. The nodes that get
the block check the place of each uncle with a walk of their own. Both follow the same rules
(`Engine.Cryptarchia.UncleRules`).
-/

namespace Logos.Chain

open Base Mantle Ledger Engine

namespace Cryptarchia

/-! ## The walk of the check -/

section

variable {s : Branches Hash} {uncles uncleParents : List Hash} {windowStart n : Nat}
  {b : Branch Hash} {found : List Hash}

/-- The blocks of a chain within a window, at most so many. -/
abbrev windowWalk (s : Branches Hash) (windowStart n : Nat) (b : Option (Branch Hash)) :
    List (Branch Hash) :=
  Branches.walkBackWhile.go s (fun block => windowStart ≤ block.slot) n b

theorem windowWalk_none : windowWalk s windowStart n none = [] := by
  cases n <;> rfl

theorem windowWalk_succ (hslot : windowStart ≤ b.slot) :
    windowWalk s windowStart (n + 1) (some b) = b :: windowWalk s windowStart n (s.parent b) :=
  if_pos (decide_eq_true hslot)

theorem windowWalk_outside (hslot : b.slot < windowStart) :
    windowWalk s windowStart (n + 1) (some b) = [] :=
  if_neg (by simpa using hslot)

/-- A round at a block in the window that is not an uncle. -/
theorem walkBackForUncles_succ (hslot : windowStart ≤ b.slot) (huncle : b.id ∉ uncles) :
    walkBackForUncles s uncles uncleParents windowStart (n + 1) b found =
      match s.parent b with
      | none => .ok (if b.id ∈ uncleParents then b.id :: found else found)
      | some p => walkBackForUncles s uncles uncleParents windowStart n p
          (if b.id ∈ uncleParents then b.id :: found else found) := by
  rw [walkBackForUncles, if_neg (Nat.not_lt.mpr hslot), if_neg huncle, Branches.parent]
  by_cases hroot : b.parent = b.id
  · rw [if_pos hroot, if_pos hroot]
  · rw [if_neg hroot, if_neg hroot]
    rfl

/-- Without an uncle on the way, the walk finds the parents of uncles that it passes. -/
theorem walkBackForUncles_ok (h : ∀ a ∈ windowWalk s windowStart n (some b), a.id ∉ uncles) :
    ∃ found', walkBackForUncles s uncles uncleParents windowStart n b found = .ok found' ∧
      ∀ i, i ∈ found' ↔ i ∈ found ∨
        i ∈ uncleParents ∧ ∃ a ∈ windowWalk s windowStart n (some b), a.id = i := by
  induction n generalizing b found with
  | zero => exact ⟨found, rfl, fun i => by simp [windowWalk, Branches.walkBackWhile.go]⟩
  | succ n ih =>
    rcases Nat.lt_or_ge b.slot windowStart with hslot | hslot
    · refine ⟨found, ?_, fun i => by simp [windowWalk_outside hslot]⟩
      rw [walkBackForUncles, if_pos hslot]
    · rw [windowWalk_succ hslot] at h ⊢
      rw [walkBackForUncles_succ hslot (h b List.mem_cons_self)]
      have hnext : ∀ i, i ∈ (if b.id ∈ uncleParents then b.id :: found else found) ↔
          i ∈ found ∨ i ∈ uncleParents ∧ b.id = i := by grind
      cases hp : s.parent b with
      | none =>
        refine ⟨_, rfl, fun i => ?_⟩
        rw [hnext, windowWalk_none]
        simp
      | some p =>
        rw [hp] at h
        obtain ⟨found', hok, hmem⟩ := @ih p (if b.id ∈ uncleParents then b.id :: found else found)
          fun a ha => h a (List.mem_cons_of_mem _ ha)
        grind

theorem walkBackForUncles_error (h : ∃ a ∈ windowWalk s windowStart n (some b), a.id ∈ uncles) :
    ∃ i, walkBackForUncles s uncles uncleParents windowStart n b found = .error i := by
  induction n generalizing b found with
  | zero =>
    obtain ⟨a, ha, -⟩ := h
    cases ha
  | succ n ih =>
    rcases Nat.lt_or_ge b.slot windowStart with hslot | hslot
    · grind [windowWalk_outside]
    · by_cases huncle : b.id ∈ uncles
      · refine ⟨b.id, ?_⟩
        grind [walkBackForUncles]
      · rw [windowWalk_succ hslot, List.exists_mem_cons_iff] at h
        rw [walkBackForUncles_succ hslot huncle]
        have hrest := h.resolve_left huncle
        cases hp : s.parent b with
        | none =>
          rw [hp, windowWalk_none] at hrest
          obtain ⟨a, ha, -⟩ := hrest
          cases ha
        | some p =>
          rw [hp] at hrest
          exact ih hrest

end

/-! ## The rules -/

/-- The header is that of a block of the tree. -/
structure HeaderOf [HeaderPrimitives] (h : SignedHeader) (b : Branch Hash) : Prop where
  id : h.header.id = b.id
  parent : h.header.parentBlock = b.parent
  slot : h.header.slot = b.slot

variable {c : Cryptarchia} {parent : Branch Hash} {slot windowStart : Nat}

/-- The rules for the place of an uncle, in the terms of the ids of the chain within the window. -/
theorem uncleRules_iff {e : Engine.Cryptarchia Hash} (hs : e.branches.Ok) (hp : e.branches.Has parent)
    {u : Branch Hash} (hu : e.branches.Has u) :
    e.UncleRules parent slot u ↔ (u.slot < slot ∧ (e.eraSchedule.atSlot slot).firstSlot ≤ u.slot) ∧
      (∀ a, Anc e.branches.par a parent → e.windowStart slot ≤ a.slot → a.id ≠ u.id) ∧
      ∃ a, Anc e.branches.par a parent ∧ e.windowStart slot ≤ a.slot ∧ a.id = u.parent := by
  constructor
  · rintro ⟨holder, hera, hoff, p, hpa, hpid, hwindow⟩
    refine ⟨⟨holder, hera⟩, fun a ha _ hid => hoff ?_, p, hpa, hwindow, hpid⟩
    rw [← Branches.eq_of_id (hs.anc_has ha hp) hu hid]
    exact ha
  · rintro ⟨⟨holder, hera⟩, hwalk, p, hpa, hwindow, hpid⟩
    refine ⟨holder, hera, fun hon => ?_, p, hpa, hpid, hwindow⟩
    have hpHas := hs.anc_has hpa hp
    -- The parent of the uncle is not later than it, so that the walk would have met the uncle.
    have hle : p.slot ≤ u.slot := by
      by_cases hlib : u.id = e.branches.lib
      · rcases hs.root u hu hlib with hself | hout
        · rw [Branches.eq_of_id hpHas hu (hpid.trans hself)]
        · exact absurd (hpid ▸ hpHas.mem) hout
      · obtain ⟨q, -, hq, hqid, -, hslot⟩ := hs.exists_par hu hlib
        rwa [← Branches.eq_of_id hq hpHas (hqid.trans hpid.symm)]
    exact hwalk u hon (hwindow.trans hle) rfl

section

variable [HeaderPrimitives]

theorem verifyUnclesAncestry_ok (hs : c.consensus.branches.Ok) (hp : c.consensus.branches.Has parent)
    {uncles : List SignedHeader} :
    c.verifyUnclesAncestry uncles parent windowStart = .ok () ↔ ∀ u ∈ uncles,
      (∀ a, Anc c.consensus.branches.par a parent → windowStart ≤ a.slot → a.id ≠ u.header.id) ∧
        ∃ a, Anc c.consensus.branches.par a parent ∧ windowStart ≤ a.slot ∧
          a.id = u.header.parentBlock := by
  have hchain : ∀ a, a ∈ windowWalk c.consensus.branches windowStart (parent.length + 1)
      (some parent) ↔ Anc c.consensus.branches.par a parent ∧ windowStart ≤ a.slot :=
    fun a => hs.mem_walkBackWhile_window hp
  by_cases honChain : ∃ a ∈ windowWalk c.consensus.branches windowStart (parent.length + 1)
      (some parent), a.id ∈ uncles.map (·.header.id)
  · obtain ⟨i, herror⟩ := walkBackForUncles_error honChain
    constructor
    · intro h
      obtain ⟨found, h1, -⟩ := bind_ok h
      rw [mapError_ok, herror] at h1
      cases h1
    · grind
  · have hoff : ∀ a ∈ windowWalk c.consensus.branches windowStart (parent.length + 1) (some parent),
        a.id ∉ uncles.map (·.header.id) := fun a ha hid => honChain ⟨a, ha, hid⟩
    obtain ⟨found, hok, hmem⟩ := @walkBackForUncles_ok _ _ (uncles.map (·.header.parentBlock)) _ _ _ []
      hoff
    have hchecks : c.verifyUnclesAncestry uncles parent windowStart = uncles.forM fun uncle =>
        failIf (uncle.header.parentBlock ∉ found)
          (.error (.invalidUncle uncle.header.id .parentNotOnChain)) := by
      rw [verifyUnclesAncestry, hok]
      rfl
    grind [forM_ok, failIf_ok]

theorem verifyUncleSlots_ok {uncles : List SignedHeader} {firstSlot : Nat} :
    (uncles.forM fun uncle => do
      failIf (slot ≤ uncle.header.slot) (.error (.invalidUncle uncle.header.id .notStrictlyOlder))
      failIf (uncle.header.slot < firstSlot) (.error (.invalidUncle uncle.header.id .otherEra)) :
        Except Failure Unit) = .ok () ↔
      ∀ u ∈ uncles, u.header.slot < slot ∧ firstSlot ≤ u.header.slot := by
  rw [forM_ok]
  refine forall₂_congr fun u _ => ?_
  constructor
  · intro h
    obtain ⟨_, h1, h2⟩ := bind_ok h
    grind [failIf_ok]
  · grind [ok_bind, failIf_of_not]

omit [HeaderPrimitives] in
theorem atSlot_consensus (heras : c.consensus.eraSchedule = engineSchedule c.ledger.eraSchedule)
    (slot : Nat) : c.consensus.eraSchedule.atSlot slot =
      (c.ledger.eraSchedule.atSlot slot).map (·.consensusConfig.toConfig) := by
  rw [heras, engineSchedule, EraSchedule.atSlot_map]

/-- The first slot of the uncle reference window. -/
def uncleWindowStart (c : Cryptarchia) (slot : Nat) : Nat :=
  slot - (c.ledger.eraSchedule.atSlot slot).parameters.consensusConfig.uncleReferenceWindowInSlot

/-- The rules for a block of the tree, in the terms of what is checked of its header. -/
theorem uncleRules_iff_header (hs : c.consensus.branches.Ok)
    (heras : c.consensus.eraSchedule = engineSchedule c.ledger.eraSchedule)
    (hp : c.consensus.branches.Has parent) {h : SignedHeader} {u : Branch Hash} (hof : HeaderOf h u)
    (hu : c.consensus.branches.Has u) :
    c.consensus.UncleRules parent slot u ↔
      (h.header.slot < slot ∧ (c.ledger.eraSchedule.atSlot slot).firstSlot ≤ h.header.slot) ∧
      (∀ a, Anc c.consensus.branches.par a parent → c.uncleWindowStart slot ≤ a.slot →
        a.id ≠ h.header.id) ∧
      ∃ a, Anc c.consensus.branches.par a parent ∧ c.uncleWindowStart slot ≤ a.slot ∧
        a.id = h.header.parentBlock := by
  have hera := atSlot_consensus heras slot
  have hwindow : c.consensus.windowStart slot = c.uncleWindowStart slot := by
    rw [Engine.Cryptarchia.windowStart, hera]
    rfl
  have hfirst : (c.consensus.eraSchedule.atSlot slot).firstSlot =
      (c.ledger.eraSchedule.atSlot slot).firstSlot := by
    rw [hera]
    rfl
  rw [uncleRules_iff hs hp hu, ← hof.slot, ← hof.id, ← hof.parent, hwindow, hfirst]

section

variable [Primitives] {block : Block}

theorem verifyUncles_eq (hp : c.consensus.branches.Has parent)
    (hparent : block.header.parentBlock = parent.id) (hne : block.uncleHeaders ≠ []) :
    c.verifyUncles block = (do
      block.uncleHeaders.forM fun uncle => do
        failIf (block.header.slot ≤ uncle.header.slot)
          (.error (.invalidUncle uncle.header.id .notStrictlyOlder))
        failIf (uncle.header.slot < (c.ledger.eraSchedule.atSlot block.header.slot).firstSlot)
          (.error (.invalidUncle uncle.header.id .otherEra))
      c.verifyUnclesAncestry block.uncleHeaders parent (c.uncleWindowStart block.header.slot)
      block.uncleHeaders.forM c.verifyUncle) := by
  have hget : c.consensus.branches.get parent.id = some parent := hp
  rw [verifyUncles, if_neg (by simpa using hne), hparent, hget]
  rfl

section

variable (hs : c.consensus.branches.Ok)
  (heras : c.consensus.eraSchedule = engineSchedule c.ledger.eraSchedule)
  (hp : c.consensus.branches.Has parent)
include hs heras hp

/-- Of uncles that the rules allow, only the headers and the proofs are left to check. -/
theorem verifyUncles_of_rules (hparent : block.header.parentBlock = parent.id)
    (hrules : ∀ h ∈ block.uncleHeaders, ∃ u, HeaderOf h u ∧ c.consensus.branches.Has u ∧
      c.consensus.UncleRules parent block.header.slot u) :
    c.verifyUncles block = block.uncleHeaders.forM c.verifyUncle := by
  by_cases hne : block.uncleHeaders = []
  · rw [verifyUncles, hne]
    rfl
  · have hslots : ∀ h ∈ block.uncleHeaders, h.header.slot < block.header.slot ∧
        (c.ledger.eraSchedule.atSlot block.header.slot).firstSlot ≤ h.header.slot := by
      intro h hh
      obtain ⟨u, hof, hu, hr⟩ := hrules h hh
      exact ((uncleRules_iff_header hs heras hp hof hu).mp hr).1
    have hancestry : c.verifyUnclesAncestry block.uncleHeaders parent
        (c.uncleWindowStart block.header.slot) = .ok () := by
      grind [verifyUnclesAncestry_ok, uncleRules_iff_header]
    rw [verifyUncles_eq hp hparent hne, verifyUncleSlots_ok.mpr hslots]
    show (do c.verifyUnclesAncestry _ _ _; _) = _
    rw [hancestry]
    rfl

/-- The uncles of a block that passes, as far as they are in the tree, fulfil the rules. -/
theorem rules_of_verifyUncles (hparent : block.header.parentBlock = parent.id)
    (hok : c.verifyUncles block = .ok ()) {h : SignedHeader} (hh : h ∈ block.uncleHeaders)
    {u : Branch Hash} (hu : c.consensus.branches.Has u) (hof : HeaderOf h u) :
    c.consensus.UncleRules parent block.header.slot u := by
  rw [verifyUncles_eq hp hparent (List.ne_nil_of_mem hh)] at hok
  obtain ⟨_, h1, h2⟩ := bind_ok hok
  obtain ⟨_, h3, -⟩ := bind_ok h2
  exact (uncleRules_iff_header hs heras hp hof hu).mpr
    ⟨verifyUncleSlots_ok.mp h1 h hh, (verifyUnclesAncestry_ok hs hp).mp h3 h hh⟩

end

/-! ## The selection of the service -/

omit [Primitives] in
/-- The headers of the selected blocks (`select_uncles`); `none` is a panic. -/
def selectUncles (c : Cryptarchia) (storage : Hash → Option SignedHeader) (parent : Hash)
    (slot : Nat) (ord : Engine.TipOrder Hash) :
    Except (Engine.Failure Hash) (Option (List SignedHeader)) :=
  match c.consensus.branches.get parent with
  | none => .ok (some [])
  | some parentBranch => do
    let candidates ← c.consensus.selectUncles parentBranch slot ord
    let uncles := candidates.filterMap fun candidate => storage candidate.id
    let maxUncles := (configForSlot c.ledger.eraSchedule slot).consensusConfig.maxUncles
    return if uncles.length ≤ maxUncles then some uncles else none

/-- **Producer and validator of uncles agree.** The selection does not depend on the order of the
tips and passes the check, and every uncle that passes fulfils the rules of the selection. -/
theorem uncles_agree {libId libParent : Hash} {state : State} {libSlot libLength : Nat}
    {libUncleSlots : List Nat} {evs : List (Engine.Event Hash)}
    {storage : Hash → Option SignedHeader}
    (hrun : Run Engine.Cryptarchia.Step (.fromLib libId libParent
      (engineSchedule c.ledger.eraSchedule) state libSlot libLength libUncleSlots) evs c.consensus)
    (hstored : ∀ b h, c.consensus.branches.Has b → storage b.id = some h → HeaderOf h b)
    (hp : c.consensus.branches.Has parent) (slot : Nat) :
    ∃ uncles headers, (∀ ord, c.consensus.selectUncles parent slot ord = .ok uncles) ∧
      c.consensus.SelectsUncles parent slot uncles ∧
      (c.ledger.eraSchedule.Resolved →
        ∀ u ∈ uncles, c.ledger.eraSchedule.atSlot u.slot = c.ledger.eraSchedule.atSlot slot) ∧
      (∀ ord, c.selectUncles storage parent.id slot ord = .ok (some headers)) ∧
      headers = uncles.filterMap (fun u => storage u.id) ∧
      ∀ block : Block, block.header.parentBlock = parent.id → block.header.slot = slot →
        (block.uncleHeaders = headers → c.verifyUncleCount block = .ok () ∧
          c.verifyUncles block = block.uncleHeaders.forM c.verifyUncle) ∧
        (c.verifyUncles block = .ok () → ∀ h ∈ block.uncleHeaders, ∀ u,
          c.consensus.branches.Has u → HeaderOf h u → c.consensus.UncleRules parent slot u) := by
  have hstart := Engine.Cryptarchia.fromLib_ok libId libParent (engineSchedule c.ledger.eraSchedule)
    state libSlot libLength libUncleSlots
  have hs := (Engine.Cryptarchia.run_ok hrun hstart).tree
  have heras : c.consensus.eraSchedule = engineSchedule c.ledger.eraSchedule :=
    Engine.Cryptarchia.run_eras hrun hstart
  obtain ⟨uncles, hselect, hspec⟩ := Engine.Cryptarchia.selectUncles_spec hs hp slot
  have hmax : (c.consensus.eraSchedule.atSlot slot).parameters.maxUncles =
      (configForSlot c.ledger.eraSchedule slot).consensusConfig.maxUncles := by
    rw [atSlot_consensus heras]
    rfl
  have hcount : (uncles.filterMap fun u => storage u.id).length ≤
      (configForSlot c.ledger.eraSchedule slot).consensusConfig.maxUncles := by
    rw [← hmax]
    exact (List.length_filterMap_le _ _).trans hspec.count
  refine ⟨uncles, _, hselect, hspec, fun hres u hu => ?_, fun ord => ?_, rfl, ?_⟩
  · have hrules := (hspec.valid u hu).2.1
    have hfirst := hrules.sameEra
    rw [atSlot_consensus heras] at hfirst
    exact hres.atSlot_eq_of_firstSlot_le hrules.older.le hfirst
  · have hget : c.consensus.branches.get parent.id = some parent := hp
    rw [selectUncles, hget]
    exact ok_bind (hselect ord) (by simp only [if_pos hcount]; rfl)
  · rintro block hparent rfl
    refine ⟨fun hheaders => ⟨?_, ?_⟩, fun hok h hh u hu hof => ?_⟩
    · grind [verifyUncleCount, failIf_of_not]
    · apply verifyUncles_of_rules hs heras hp hparent
      intro h hh
      rw [hheaders] at hh
      obtain ⟨u, hu, hstore⟩ := List.mem_filterMap.mp hh
      obtain ⟨hhas, hrules, -⟩ := hspec.valid u hu
      exact ⟨u, hstored u h hhas hstore, hhas, hrules⟩
    · exact rules_of_verifyUncles hs heras hp hparent hok hh hu hof

end

end

/-- A chain of three blocks with forks off its last two. -/
def forkedBlocks : List (Engine.Cryptarchia.Input Hash) :=
  [.block 1 0 3, .block 2 1 5, .block 4 1 4, .block 3 1 4, .block 5 2 6, .block 6 1 6]

/-- The selection at slot 7 on the third block takes the first block of each free slot. -/
theorem uncles_agree_forked :
    letI := Primitives.plain
    letI := HeaderPrimitives.plain
    ∃ (c : Cryptarchia) (evs : List (Engine.Event Hash)) (parent : Branch Hash)
      (uncles : List (Branch Hash)),
      Run Engine.Cryptarchia.Step (.fromGenesis 0 (engineSchedule (.single .small)) .bootstrapping)
        evs c.consensus ∧
      parent.id = 2 ∧ parent.slot < 7 ∧
      (∀ ord, c.consensus.selectUncles parent 7 ord = .ok uncles) ∧ uncles.map (·.id) = [3, 6] ∧
      c.consensus.SelectsUncles parent 7 uncles := by
  let _ := Primitives.plain
  let _ := HeaderPrimitives.plain
  obtain ⟨evs, e, hrun, he⟩ := Engine.Cryptarchia.exists_run .ascending
    (.fromGenesis 0 (engineSchedule (.single .small)) .bootstrapping) forkedBlocks
    (fun r => (r.2.branches.get 2).map fun p =>
      (p.id, p.slot, (r.2.selectUncles p 7 .ascending).toOption.map (·.map (·.id))))
    (a := some (2, 5, some [3, 6])) (by decide +kernel)
  obtain ⟨parent, hget, hparent⟩ := Option.map_eq_some_iff.mp he
  obtain ⟨hid, hrest⟩ := Prod.mk.inj hparent
  obtain ⟨hslot, hids⟩ := Prod.mk.inj hrest
  have hs := (Engine.Cryptarchia.run_ok hrun (Engine.Cryptarchia.fromLib_ok _ _ _ _ _ _ _)).tree
  let c : Cryptarchia := ⟨.new 0 (.fromUtxos [] .small 0 []) (.single .small), e, 0⟩
  let storage : Hash → Option SignedHeader := fun i =>
    (e.branches.get i).map fun b => ⟨⟨b.slot, b.parent, b.id, ⟨0, 0, 0, 0⟩⟩, 0⟩
  have hstored : ∀ b h, c.consensus.branches.Has b → storage b.id = some h → HeaderOf h b := by
    intro b h hb hh
    have hget : e.branches.get b.id = some b := hb
    simp only [storage, hget, Option.map_some, Option.some.injEq] at hh
    subst hh
    exact ⟨rfl, rfl, rfl⟩
  obtain ⟨uncles, _, hselect, hspec, -⟩ := uncles_agree (c := c) hrun hstored
    (hs.has_of_lookup hget) 7
  refine ⟨c, evs, parent, uncles, hrun, hid, by omega, hselect, ?_, hspec⟩
  have hsame : e.selectUncles parent 7 .ascending = .ok uncles := hselect .ascending
  rw [hsame] at hids
  exact Option.some.inj hids

end Cryptarchia

end Logos.Chain
