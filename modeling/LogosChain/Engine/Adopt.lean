import LogosChain.Base.Choose
import LogosChain.Engine.Walk

/-!
# Adding a block, and the fork choice

`applyHeader` keeps the block tree well formed if the id is fresh (`Fresh`). The fork choice returns
a tip: the fold starts at the local chain, which is a tip or has just been extended by one, and
every fork shares the LIB with it.
-/

namespace Logos.Engine

open Base Branches

variable {Id : Type}

theorem expect_some {α : Type} {o : Option α} {a : α} (h : o = some a) (p : Panic) :
    (expect o p : Except (Failure Id) α) = .ok a := by
  rw [h]; rfl

namespace Branches

variable [DecidableEq Id] {s s' : Branches Id} {slot : Nat} {us : List Nat} {id parent : Id}
  {b : Branch Id}

/-- A new id, which is not the recorded parent of a block either. -/
def Fresh (s : Branches Id) (id : Id) : Prop :=
  id ∉ s.branches ∧ ∀ i b, s.branches.lookup i = some b → b.parent ≠ id

instance (s : Branches Id) (id : Id) : Decidable (s.Fresh id) :=
  decidable_of_iff (id ∉ s.branches ∧ ∀ e ∈ s.branches.entries, e.2.parent ≠ id)
    (and_congr_right fun _ => ⟨fun h i b hb => h ⟨i, b⟩ (Finmap.lookup_eq_some_iff.mp hb),
      fun h e he => h e.1 e.2 (Finmap.lookup_eq_some_iff.mpr he)⟩)

/-! ## Adding a block -/

/-- `s'` is `s` with `b`, a child of `p`. -/
structure Adds (s : Branches Id) (p b : Branch Id) (s' : Branches Id) : Prop where
  parent : s.Has p
  parent_id : b.parent = p.id
  length : b.length = p.length + 1
  slot : p.slot ≤ b.slot
  branches : s'.branches = s.branches.insert b.id b
  tips : s'.tips = insert b.id (s.tips.erase p.id)
  lib : s'.lib = s.lib

theorem applyHeader_ok (hs : s.Ok) (h : s.applyHeader id parent slot us = .ok s') :
    ∃ p b, s.Adds p b s' ∧ b.id = id ∧ b.parent = parent ∧ b.slot = slot := by
  unfold applyHeader at h
  split at h
  · cases h
  · rename_i p hp
    split at h
    · cases h
    · split at h
      · cases h
        have hk := hs.key _ _ hp
        refine ⟨p, ⟨id, parent, slot, p.length + 1, us⟩, ⟨hs.has_of_lookup hp, hk.symm, rfl, ?_, rfl,
          ?_, rfl⟩, rfl, rfl, rfl⟩
        · simp only; omega
        · simp only [hk]
      · cases h

/-- The block that `applyHeader` adds has the uncles it is given, and its length is a `u64`. -/
theorem applyHeader_block (h : s.applyHeader id parent slot us = .ok s')
    (hb : s'.branches.lookup id = some b) :
    b.uncleSlots = us ∧ b.length < 2 ^ 64 := by grind [applyHeader, Finmap.lookup_insert]

theorem exists_applyHeader {p : Branch Id} (hp : s.Has p) (hpar : b.parent = p.id)
    (hlength : b.length = p.length + 1) (hslot : p.slot ≤ b.slot) (hfits : b.length < 2 ^ 64) :
    ∃ s', s.applyHeader b.id b.parent b.slot b.uncleSlots = .ok s' ∧ s.Adds p b s' := by
  have hget : s.branches.lookup b.parent = some p := by
    rw [hpar]
    exact hp
  refine ⟨{ s with
    tips := insert b.id (s.tips.erase b.parent), branches := s.branches.insert b.id b }, ?_, ?_⟩
  · simp only [applyHeader, hget, if_neg (Nat.not_lt.mpr hslot), ← hlength, if_pos hfits]
  · exact ⟨hp, hpar, hlength, hslot, rfl, by rw [hpar], rfl⟩

theorem applyHeader_error {f : Failure Id} (h : s.applyHeader id parent slot us = .error f) :
    (∃ e, f = .error e) ∨ f = .panic .heightOverflow := by grind [applyHeader]

namespace Adds

variable {p b x : Branch Id}

theorem has_iff (ha : s.Adds p b s') : s'.Has x ↔ x = b ∨ (x.id ≠ b.id ∧ s.Has x) := by
  unfold Branches.Has
  rw [ha.branches, Map.lookup_insert_some]
  grind

theorem has_new (ha : s.Adds p b s') : s'.Has b := ha.has_iff.mpr (.inl rfl)

theorem ne_of_has (hf : s.Fresh b.id) (hx : s.Has x) :
    x.id ≠ b.id := fun he => hf.1 (he ▸ hx.mem)

variable (ha : s.Adds p b s')
include ha

theorem has_old (hf : s.Fresh b.id) (hx : s.Has x) : s'.Has x :=
  ha.has_iff.mpr (.inr ⟨ne_of_has hf hx, hx⟩)

theorem par_old (hf : s.Fresh b.id) (hx : s.Has x) : s'.par x = s.par x := by
  rw [par_of_has hx, par_of_has (ha.has_old hf hx), Branches.parent, Branches.parent, ha.branches,
    Map.lookup_insert_ite, if_neg (hf.2 _ x hx)]

theorem par_new (hf : s.Fresh b.id) : s'.par b = some p := by
  have hne : p.id ≠ b.id := ne_of_has hf ha.parent
  rw [par_of_has ha.has_new, Branches.parent, ha.parent_id, if_neg hne]
  exact ha.has_old hf ha.parent

theorem anc_iff (hs : s.Ok) (hf : s.Fresh b.id) {y : Branch Id}
    (hy : s.Has y) : Anc s'.par x y ↔ Anc s.par x y := by
  constructor
  · intro hxy
    induction hxy with
    | refl => exact .refl x
    | @tail q y _ hqy ih =>
      have hqy' : s.par y = some q := by rw [← ha.par_old hf hy]; exact hqy
      exact (ih (hs.par_spec hqy').2.1).step hqy'
  · intro hxy
    refine hxy.congr_of fun c q _ hc hcy => ?_
    rw [ha.par_old hf (hs.par_spec hc).1]; exact hc

theorem anc_new (hs : s.Ok) (hf : s.Fresh b.id) : Anc s'.par x b ↔ x = b ∨ Anc s.par x p := by
  constructor
  · intro hx
    rcases hx.cases_parent with rfl | ⟨q, hq, hxq⟩
    · exact .inl rfl
    · rw [ha.par_new hf] at hq; cases hq
      exact .inr ((ha.anc_iff hs hf ha.parent).mp hxq)
  · rintro (rfl | hx)
    · exact .refl _
    · exact ((ha.anc_iff hs hf ha.parent).mpr hx).step (ha.par_new hf)

theorem mem_tips {i : Id} : i ∈ s'.tips ↔ i = b.id ∨ (i ≠ p.id ∧ i ∈ s.tips) := by
  rw [ha.tips, Finset.mem_insert, Finset.mem_erase]

theorem ok (hs : s.Ok) (hf : s.Fresh b.id) : s'.Ok where
  key i x hx := by
    rw [ha.branches, Map.lookup_insert_some] at hx
    rcases hx with ⟨rfl, rfl⟩ | ⟨-, hx⟩
    · rfl
    · exact hs.key i x hx
  lib := by
    rw [ha.branches, ha.lib]
    exact Finmap.mem_insert.mpr (.inr hs.lib)
  up x hx hne := by
    rw [ha.lib] at hne
    rcases ha.has_iff.mp hx with rfl | ⟨-, hx⟩
    · exact ⟨p, ha.has_old hf ha.parent, ha.parent_id.symm, ha.length, ha.slot⟩
    · obtain ⟨q, hq, hid, hlen, hslot⟩ := hs.up x hx hne
      exact ⟨q, ha.has_old hf hq, hid, hlen, hslot⟩
  root x hx hl := by
    rw [ha.lib] at hl
    rcases ha.has_iff.mp hx with rfl | ⟨-, hx⟩
    · exact absurd (hl ▸ hs.lib) hf.1
    · refine (hs.root x hx hl).imp_right fun h => ?_
      rw [ha.branches, Finmap.mem_insert]
      rintro (h' | h')
      · exact hf.2 _ x hx h'
      · exact h h'
  tips i := by
    rw [ha.mem_tips, ha.branches, Finmap.mem_insert]
    constructor
    · rintro (rfl | ⟨hne, hi⟩)
      · refine ⟨.inl rfl, fun c ⟨hc, hcp, hcne⟩ => ?_⟩
        rcases ha.has_iff.mp hc with rfl | ⟨-, hc⟩
        · exact hcne rfl
        · exact hf.2 _ c hc hcp
      · refine ⟨.inr ((hs.tips i).mp hi).1, fun c ⟨hc, hcp, hcne⟩ => ?_⟩
        rcases ha.has_iff.mp hc with rfl | ⟨-, hc⟩
        · exact hne (hcp.symm.trans ha.parent_id)
        · exact ((hs.tips i).mp hi).2 c ⟨hc, hcp, hcne⟩
    · rintro ⟨hi, hno⟩
      by_cases he : i = b.id
      · exact .inl he
      · refine .inr ⟨fun hip => ?_, (hs.tips i).mpr ⟨hi.resolve_left he, fun c ⟨hc, hcp, hcne⟩ =>
          hno c ⟨ha.has_old hf hc, hcp, hcne⟩⟩⟩
        exact hno b ⟨ha.has_new, ha.parent_id.trans hip.symm, fun h => he h.symm⟩
  below x hx := by
    rcases ha.has_iff.mp hx with rfl | ⟨-, hx⟩
    · exact ⟨x, ha.has_new, ha.mem_tips.mpr (.inl rfl), .refl x⟩
    · obtain ⟨t, ht, hti, hxt⟩ := hs.below x hx
      by_cases he : t.id = p.id
      · cases eq_of_id ht ha.parent he
        exact ⟨b, ha.has_new, ha.mem_tips.mpr (.inl rfl), (ha.anc_new hs hf).mpr (.inr hxt)⟩
      · exact ⟨t, ha.has_old hf ht, ha.mem_tips.mpr (.inr ⟨he, hti⟩),
          (ha.anc_iff hs hf ht).mpr hxt⟩

end Adds

/-! ## The tips as blocks -/

/-- The tips as blocks. -/
def tipList (s : Branches Id) (ord : TipOrder Id) : List (Branch Id) :=
  (ord.enumerate s.tips).filterMap s.branches.lookup

theorem Ok.mem_tipList (hs : s.Ok) {ord : TipOrder Id} {t : Branch Id} :
    t ∈ s.tipList ord ↔ s.Has t ∧ t.id ∈ s.tips := by
  rw [tipList, List.mem_filterMap]
  constructor
  · grind [key, has_of_lookup, TipOrder.mem]
  · rintro ⟨ht, hi⟩
    exact ⟨t.id, (ord.mem _ _).mpr hi, ht⟩

/-- Every tip is in the map, so no index of `branches()` fails. -/
theorem Ok.tipBranches_eq (hs : s.Ok) (ord : TipOrder Id) :
    s.tipBranches ord = .ok (s.tipList ord) := by
  have hgo : ∀ is : List Id, (∀ i ∈ is, i ∈ s.tips) →
      is.mapM s.index = .ok (is.filterMap s.branches.lookup) := by
    intro is hmem
    induction is with
    | nil => rfl
    | cons i is ih =>
      obtain ⟨t, ht, rfl⟩ := hs.tip_has (hmem i List.mem_cons_self)
      have ht' : s.branches.lookup t.id = some t := ht
      have hi : s.index t.id = .ok t := by rw [index, ht']
      rw [List.mapM_cons, hi, ih fun j hj => hmem j (List.mem_cons_of_mem _ hj),
        List.filterMap_cons, ht']
      rfl
  exact hgo _ fun i hi => (ord.mem _ _).mp hi

end Branches

/-! ## The fork choice -/

namespace Cryptarchia

variable [DecidableEq Id] {c c' : Cryptarchia Id} {us : List Nat} {ord : TipOrder Id} {slot : Nat}
  {x : Branch Id} {s' : Branches Id} {id parent : Id}

/-- The density rule: `y` has more blocks than `x` in the window from `l`. -/
def denser (c : Cryptarchia Id) (l x y : Branch Id) : Bool :=
  (c.branches.walkBackBefore x ((l.slot + (c.bgParamsAt l.slot).2) % 2 ^ 64)).length <
    (c.branches.walkBackBefore y ((l.slot + (c.bgParamsAt l.slot).2) % 2 ^ 64)).length

/-- The fork choice prefers `y` to `x`, given their common ancestor `l`. -/
def prefersAt (c : Cryptarchia Id) (l x y : Branch Id) : Bool :=
  match c.state with
  | .bootstrapping =>
    if x.length - l.length ≤ c.kAt l.slot then x.length < y.length else c.denser l x y
  | .online => x.length - l.length ≤ c.kAt l.slot ∧ x.length < y.length

/-- The fork choice leaves `x` for `y`. -/
def prefers (c : Cryptarchia Id) (x y : Branch Id) : Bool :=
  ((c.branches.lca x y).map fun l => c.prefersAt l x y).getD false

theorem prefers_eq {l y : Branch Id} (h : c.branches.lca x y = some l) :
    c.prefers x y = c.prefersAt l x y := by
  rw [prefers, h]; rfl

theorem prefers_self (hs : c.branches.Ok) (hx : c.branches.Has x) : c.prefers x x = false := by
  obtain ⟨l, hl, -⟩ := hs.lca_spec hx hx
  rw [prefers_eq hl, prefersAt]
  cases c.state <;> simp [denser]

/-- A step of either fork choice, in terms of the preference. -/
theorem step_eq {l y : Branch Id} (h : c.branches.lca x y = some l) :
    (c.state = .bootstrapping →
      c.branches.bgStep c.bgParamsAt x y = .ok (if c.prefers x y then y else x)) ∧
    (c.state = .online → c.branches.mcStep c.kAt x y = .ok (if c.prefers x y then y else x)) := by
  constructor <;> intro hst
  · have hk : (c.bgParamsAt l.slot).1 = c.kAt l.slot := rfl
    rw [prefers_eq h, prefersAt, hst, bgStep, expect_some h]
    simp only [bind, Except.bind, pure, Except.pure, hk]
    split
    · simp only [decide_eq_true_eq]
    · simp only [denser, decide_eq_true_eq]
  · rw [prefers_eq h, prefersAt, hst, mcStep, expect_some h]
    simp only [bind, Except.bind, pure, Except.pure, decide_eq_true_eq]

/-- **The fork choice is the choice by preference among the tips**, and never fails. -/
theorem forkChoice_eq (hs : c.branches.Ok) (hl : c.branches.Has c.localChain) (ord : TipOrder Id) :
    c.forkChoice ord = .ok (choose c.prefers c.localChain (c.branches.tipList ord)) := by
  have hmem : ∀ y ∈ c.branches.tipList ord, c.branches.Has y := fun y hy => (hs.mem_tipList.mp hy).1
  have hstep : ∀ x y, c.branches.Has x → y ∈ c.branches.tipList ord →
      (c.state = .bootstrapping →
        c.branches.bgStep c.bgParamsAt x y = .ok (if c.prefers x y then y else x)) ∧
      (c.state = .online → c.branches.mcStep c.kAt x y = .ok (if c.prefers x y then y else x)) := by
    intro x y hx hy
    obtain ⟨l, hlca, -⟩ := hs.lca_spec hx (hmem y hy)
    exact step_eq hlca
  unfold forkChoice
  cases hst : c.state with
  | bootstrapping =>
    simp only [maxvalidBg, hs.tipBranches_eq ord]
    exact foldlM_choose (fun x y hx hy => (hstep x y hx hy).1 hst) hmem hl
  | online =>
    simp only [maxvalidMc, hs.tipBranches_eq ord]
    exact foldlM_choose (fun x y hx hy => (hstep x y hx hy).2 hst) hmem hl

/-- A child of a block is preferred to it: their common ancestor is the block itself. -/
theorem prefers_child (hs : c.branches.Ok) {y : Branch Id} (hy : c.branches.par y = some x) :
    c.prefers x y = true := by
  obtain ⟨hyHas, hxHas, -, hlen, -⟩ := hs.par_spec hy
  obtain ⟨l, hl, -, hlca⟩ := hs.lca_spec hxHas hyHas
  have hlx : l = x := hlca.unique hs.graded (.of_anc (.of_parent hy))
  subst hlx
  rw [prefers_eq hl, prefersAt]
  cases c.state <;> simp <;> omega

/-! ## The state with the block -/

/-- The invariant: a well-formed tree, and a tip of it as the local chain. -/
structure Ok (c : Cryptarchia Id) : Prop where
  tree : c.branches.Ok
  has : c.branches.Has c.localChain
  tip : c.localChain.id ∈ c.branches.tips

/-- The block is added, and the fork choice made. -/
structure Adopts (c : Cryptarchia Id) (ord : TipOrder Id) (p b : Branch Id)
    (c' : Cryptarchia Id) : Prop where
  adds : c.branches.Adds p b c'.branches
  choice : c'.localChain = choose c'.prefers c.localChain (c'.branches.tipList ord)
  eras : c'.eraSchedule = c.eraSchedule
  state : c'.state = c.state

/-- `adopt` adds the block to the tree and makes the fork choice. -/
theorem adopt_of_adds (hc : c.Ok) (ord : TipOrder Id) {p b : Branch Id} (hf : c.branches.Fresh b.id)
    (ha : c.branches.applyHeader b.id b.parent b.slot us = .ok s')
    (hadds : c.branches.Adds p b s') :
    ∃ c', c.adopt ord b.id b.parent b.slot us = .ok c' ∧ c.Adopts ord p b c' := by
  have hfc := forkChoice_eq (c := { c with branches := s' }) (hadds.ok hc.tree hf)
    (hadds.has_old hf hc.has) ord
  exact ⟨_, ok_bind ha (ok_bind hfc rfl), hadds, rfl, rfl, rfl⟩

theorem adopt_of_applyHeader (hc : c.Ok) (hf : c.branches.Fresh id)
    (ha : c.branches.applyHeader id parent slot us = .ok s') :
    ∃ p b c', c.adopt ord id parent slot us = .ok c' ∧ c.Adopts ord p b c' ∧ b.id = id ∧
      b.parent = parent ∧ b.slot = slot := by
  obtain ⟨p, b, hadds, rfl, rfl, rfl⟩ := applyHeader_ok hc.tree ha
  obtain ⟨c', hadopt, hadopts⟩ := adopt_of_adds hc ord hf ha hadds
  exact ⟨p, b, c', hadopt, hadopts, rfl, rfl, rfl⟩

theorem adopt_ok (hc : c.Ok) (hf : c.branches.Fresh id)
    (h : c.adopt ord id parent slot us = .ok c') :
    ∃ p b, c.Adopts ord p b c' ∧ b.id = id ∧ b.parent = parent ∧ b.slot = slot := by
  obtain ⟨s', ha, -⟩ := bind_ok h
  obtain ⟨p, b, c₁, h₁, hadopts⟩ := adopt_of_applyHeader hc hf ha
  rw [h] at h₁
  cases h₁
  exact ⟨p, b, hadopts⟩

/-- What `adopt` fails with: an error, or the length of the chain is past the `u64`s. -/
theorem adopt_error (hc : c.Ok) {f : Failure Id} (hf : c.branches.Fresh id)
    (h : c.adopt ord id parent slot us = .error f) :
    (∃ e, f = .error e) ∨ f = .panic .heightOverflow := by
  rcases bind_error h with ha | ⟨s', ha, -⟩
  · exact applyHeader_error ha
  · obtain ⟨_, _, _, h₁, -⟩ := adopt_of_applyHeader hc hf ha
    rw [h] at h₁
    cases h₁

/-- **The local chain after the fork choice is a tip.** A new block on it is preferred. -/
theorem Adopts.ok {p b : Branch Id} (ha : c.Adopts ord p b c') (hc : c.Ok)
    (hf : c.branches.Fresh b.id) : c'.Ok := by
  have hs' := ha.adds.ok hc.tree hf
  have hnew : b ∈ c'.branches.tipList ord :=
    hs'.mem_tipList.mpr ⟨ha.adds.has_new, ha.adds.mem_tips.mpr (.inl rfl)⟩
  have hmem : c'.localChain = c.localChain ∧ c.localChain.id ≠ p.id ∨
      c'.localChain ∈ c'.branches.tipList ord := by
    rw [ha.choice]
    by_cases he : c.localChain.id = p.id
    · refine .inr (choose_mem_of_prefers hnew ?_)
      rw [eq_of_id hc.has ha.adds.parent he]
      exact prefers_child hs' (ha.adds.par_new hf)
    · exact (choose_mem _ _).imp_left fun h => ⟨h, he⟩
  rcases hmem with ⟨hsame, hne⟩ | htip
  · refine ⟨hs', hsame ▸ ha.adds.has_old hf hc.has, ha.adds.mem_tips.mpr (.inr ?_)⟩
    rw [hsame]
    exact ⟨hne, hc.tip⟩
  · exact ⟨hs', (hs'.mem_tipList.mp htip).1, (hs'.mem_tipList.mp htip).2⟩

end Cryptarchia

end Logos.Engine
