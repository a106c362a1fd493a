import LogosChain.Engine.Adopt

/-!
# Moving the LIB

`updateLib` moves the LIB to a block `r` of the local chain and leaves exactly the descendants of
`r` in the tree (`Prunes`). The stale forks are removed one tip at a time and share blocks, so each
removal is relative to the blocks that are already gone (`Without`), which are closed under
ancestors off the local chain.
-/

namespace Logos.Engine

open Base Branches Cryptarchia List

variable {Id : Type} [DecidableEq Id]

/-- The map `m` is the map of the tree without the blocks of `V`. -/
def Without (s : Branches Id) (V : Branch Id → Prop) (m : Map Id (Branch Id)) : Prop :=
  ∀ i b, m.lookup i = some b ↔ s.branches.lookup i = some b ∧ ¬ V b

namespace Without

variable {s : Branches Id} {V W : Branch Id → Prop} {m : Map Id (Branch Id)} {x : Branch Id}

variable (h : Without s V m)
include h

theorem congr (hVW : ∀ b, s.Has b → (V b ↔ W b)) (hs : s.Ok) :
    Without s W m := fun i b => by
  rw [h i b]
  grind [Branches.Ok.has_of_lookup]

theorem erase (hs : s.Ok) (hx : s.Has x) :
    Without s (fun b => V b ∨ b = x) (m.erase x.id) := fun i b => by
  rw [Map.lookup_erase_some, h i b]
  constructor
  · grind [Branches.Ok.key]
  · rintro ⟨hb, hV⟩
    refine ⟨fun he => hV (.inr ?_), hb, fun h' => hV (.inl h')⟩
    exact eq_of_id (hs.has_of_lookup hb) hx ((hs.key _ _ hb).trans he)

theorem lookup_of_not (hx : s.Has x) (hV : ¬ V x) :
    m.lookup x.id = some x := (h _ _).mpr ⟨hx, hV⟩

theorem lookup_none (hs : s.Ok) (hx : s.Has x) (hV : V x) : m.lookup x.id = none := by
  cases hm : m.lookup x.id with
  | none => rfl
  | some b =>
    obtain ⟨hb, hnV⟩ := (h _ _).mp hm
    cases eq_of_id (hs.has_of_lookup hb) hx (hs.key _ _ hb)
    exact absurd hV hnV

end Without

/-! ## One fork -/

/-- A block of the tree that is not on the chain of `loc`. -/
def Off (s : Branches Id) (loc x : Branch Id) : Prop := s.Has x ∧ ¬ Anc s.par x loc

variable {s : Branches Id} {loc x b : Branch Id} {V : Branch Id → Prop} {n : Nat}
  {m : Map Id (Branch Id)} {infos : List (ForkDivergenceInfo Id)}

/-- The blocks from `x` down to the chain of `loc` are gone; the new ones are returned once. -/
theorem removeFork_spec (hs : s.Ok) {l : Branch Id} (hll : Anc s.par l loc) (hx : s.Has x)
    (hlx : Anc s.par l x) (hlast : ∀ y, Anc s.par y loc → Anc s.par y x → Anc s.par y l)
    (hm : Without s V m) (hcl : ∀ y z, Anc s.par y x → V y → Anc s.par z y → Off s loc z → V z)
    (hn : x.length < n) :
    Without s (fun b => V b ∨ (Off s loc b ∧ Anc s.par b x))
      (removeFork l.id n m x.id).1 ∧
    (removeFork l.id n m x.id).2.Nodup ∧
    ∀ i, i ∈ (removeFork l.id n m x.id).2 ↔
      ∃ b, b.id = i ∧ Off s loc b ∧ Anc s.par b x ∧ ¬ V b := by
  induction n generalizing x V m with
  | zero => omega
  | succ n ih =>
    have hlHas := hs.anc_has hlx hx
    rw [removeFork]
    by_cases he : x.id = l.id
    · -- the chain of `loc` is reached: no ancestor of `l` is off it
      obtain rfl := eq_of_id hx hlHas he
      have hno : ∀ b, Off s loc b → ¬ Anc s.par b x := fun b hb hbx => hb.2 (hbx.trans hll)
      rw [if_pos rfl]
      refine ⟨hm.congr (fun b _ => ?_) hs, nodup_nil, fun i => ?_⟩
      · exact ⟨.inl, fun h => h.elim id fun h => absurd h.2 (hno b h.1)⟩
      · grind
    · rw [if_neg he]
      have hxoff : Off s loc x := by
        refine ⟨hx, fun hxl => he ?_⟩
        rw [hs.graded.antisymm (hlast x hxl (.refl x)) hlx]
      by_cases hV : V x
      · -- another fork has removed `x`, and with it everything below
        rw [hm.lookup_none hs hx hV]
        refine ⟨hm.congr (fun b _ => ?_) hs, nodup_nil, fun i => ?_⟩
        · exact ⟨.inl, fun h => h.elim id fun h => hcl x b (.refl x) hV h.2 h.1⟩
        · grind [Anc.refl]
      · rw [hm.lookup_of_not hx hV]
        obtain ⟨p, hp, hlp⟩ : ∃ p, s.par x = some p ∧ Anc s.par l p :=
          hlx.cases_parent.resolve_left fun h => he (by rw [h])
        obtain ⟨-, hpHas, hpid, hlen, -⟩ := hs.par_spec hp
        have hnx : ∀ y, Anc s.par y p → y ≠ x := fun y => hs.graded.ne_of_anc_parent hp
        obtain ⟨h1, h2, h3⟩ := ih hpHas hlp (fun y hyl hyp => hlast y hyl (hyp.step hp))
          (hm.erase hs hx)
          (fun y z hyp hy hzy hz => by
            rcases hy with hy | hy
            · exact .inl (hcl y z (hyp.step hp) hy hzy hz)
            · exact absurd hy (hnx y hyp))
          (by omega)
        simp only [← hpid]
        refine ⟨h1.congr (fun b _ => ?_) hs, nodup_cons.mpr ⟨fun h => ?_, h2⟩, fun i => ?_⟩
        · rw [Anc.iff_of_parent hp]
          constructor
          · rintro ((h | rfl) | ⟨h, h'⟩)
            · exact .inl h
            · exact .inr ⟨hxoff, .inl rfl⟩
            · exact .inr ⟨h, .inr h'⟩
          · grind
        · obtain ⟨b, hbid, hb, hbp, -⟩ := (h3 _).mp h
          exact hnx b hbp (eq_of_id hb.1 hx hbid)
        · rw [mem_cons, h3]
          constructor
          · rintro (rfl | ⟨b, rfl, hb, hbp, hbV⟩)
            · exact ⟨x, rfl, hxoff, .refl x, hV⟩
            · exact ⟨b, rfl, hb, hbp.step hp, fun h => hbV (.inl h)⟩
          · rintro ⟨b, rfl, hb, hbx, hbV⟩
            rcases (Anc.iff_of_parent hp).mp hbx with rfl | hbp
            · exact .inl rfl
            · grind

/-! ## All forks -/

/-- A fork to remove, with the block where it left the chain of `loc`. -/
def IsFork (s : Branches Id) (loc : Branch Id) (info : ForkDivergenceInfo Id) : Prop :=
  s.Has info.tip ∧ IsLca s.par loc info.tip info.lca

/-- The blocks off the chain of `loc` below one of the tips. -/
def OffBelow (s : Branches Id) (loc : Branch Id) (infos : List (ForkDivergenceInfo Id))
    (b : Branch Id) : Prop :=
  Off s loc b ∧ ∃ info ∈ infos, Anc s.par b info.tip

theorem not_offBelow_nil : ¬ OffBelow s loc [] b := by
  rintro ⟨-, info, h, -⟩
  cases h

theorem offBelow_cons {info : ForkDivergenceInfo Id} :
    OffBelow s loc (info :: infos) b ↔
      (Off s loc b ∧ Anc s.par b info.tip) ∨ OffBelow s loc infos b := by
  constructor
  · rintro ⟨hb, i, hi, hbi⟩
    rcases mem_cons.mp hi with rfl | hi
    · exact .inl ⟨hb, hbi⟩
    · exact .inr ⟨hb, i, hi, hbi⟩
  · rintro (⟨hb, hbi⟩ | ⟨hb, i, hi, hbi⟩)
    · exact ⟨hb, info, mem_cons_self, hbi⟩
    · exact ⟨hb, i, mem_cons_of_mem _ hi, hbi⟩

/-- Removing forks in any order: the blocks off the chain of `loc` below their tips are gone, and
those new among them are returned once. -/
theorem pruneForks_spec (hs : s.Ok) {t : Branches Id} (hinfos : ∀ info ∈ infos, IsFork s loc info)
    (ht : Without s V t.branches) (hcl : ∀ y z, V y → Anc s.par z y → Off s loc z → V z) :
    Without s (fun b => V b ∨ OffBelow s loc infos b)
      (pruneForks t infos).1.branches ∧
    (pruneForks t infos).2.Nodup ∧
    (∀ i, i ∈ (pruneForks t infos).2 ↔
      ∃ b, b.id = i ∧ OffBelow s loc infos b ∧ ¬ V b) ∧
    (∀ i, i ∈ (pruneForks t infos).1.tips ↔
      i ∈ t.tips ∧ ∀ info ∈ infos, info.tip.id ≠ i) ∧ (pruneForks t infos).1.lib = t.lib := by
  induction infos generalizing V t with
  | nil =>
    refine ⟨ht.congr (fun b _ => (or_iff_left not_offBelow_nil).symm) hs, nodup_nil,
      fun i => ?_, by simp [pruneForks], rfl⟩
    refine ⟨fun h => (by cases h), ?_⟩
    rintro ⟨b, -, hb, -⟩
    exact absurd hb not_offBelow_nil
  | cons info infos ih =>
    obtain ⟨htip, hlca⟩ := hinfos info mem_cons_self
    obtain ⟨h1, h2, h3⟩ := removeFork_spec hs hlca.left htip hlca.right hlca.last ht
      (fun y z _ hy hzy hz => hcl y z hy hzy hz) (Nat.lt_succ_self info.tip.length)
    obtain ⟨g1, g2, g3, g4, g5⟩ := ih (t := (pruneFork t info).1)
      (fun i hi => hinfos i (mem_cons_of_mem _ hi)) h1 (by
        grind [Anc.trans])
    refine ⟨g1.congr (fun b _ => ?_) hs, ?_, fun i => ?_, fun i => ?_, g5⟩
    · rw [offBelow_cons, or_assoc]
    · refine nodup_append.mpr ⟨h2, g2, fun i hi j hj he => ?_⟩
      subst he
      obtain ⟨b, rfl, hb, hbt, -⟩ := (h3 i).mp hi
      obtain ⟨b', hid, hb', hnV⟩ := (g3 b.id).mp hj
      cases eq_of_id hb'.1.1 hb.1 hid
      exact hnV (.inr ⟨hb, hbt⟩)
    · simp only [pruneForks]
      rw [mem_append, g3]
      constructor
      · rintro (hi | ⟨b, rfl, hb, hnV⟩)
        · obtain ⟨b, rfl, hb, hbt, hnV⟩ := (h3 i).mp hi
          exact ⟨b, rfl, offBelow_cons.mpr (.inl ⟨hb, hbt⟩), hnV⟩
        · grind [offBelow_cons]
      · rintro ⟨b, rfl, hb, hnV⟩
        by_cases hbt : Off s loc b ∧ Anc s.par b info.tip
        · exact .inl ((h3 _).mpr ⟨b, rfl, hbt.1, hbt.2, hnV⟩)
        · grind [offBelow_cons]
    · grind [pruneForks, pruneFork]

/-! ## The blocks under the LIB -/

/-- Removing the ancestors of a block: they are gone, and returned newest first. -/
theorem removeAncestors_spec (hs : s.Ok) {r : Branch Id} {l : List (Branch Id)} (hr : s.Has r)
    (hrid : r.id = s.lib) (hl : Path s.par r l x) (hm : Without s V m)
    (hV : ∀ y, Anc s.par y x → ¬ V y) (hn : x.length < n) :
    Without s (fun b => V b ∨ Anc s.par b x) (removeAncestors n m x.id).1 ∧
    (removeAncestors n m x.id).2 = ((r :: l).map fun b => (b.slot, b.id)).reverse := by
  induction hl generalizing n V m with
  | nil =>
    obtain ⟨n, rfl⟩ : ∃ k, n = k + 1 := ⟨n - 1, by omega⟩
    have hroot := hs.par_lib hr hrid
    -- the next block is `r` itself or is not in the tree
    have hend : (m.erase r.id).lookup r.parent = none := by
      rw [Map.lookup_erase_ite]
      rcases hs.root r hr hrid with h | h
      · rw [if_pos h]
      · split
        · rfl
        · cases hb : m.lookup r.parent with
          | none => rfl
          | some b => exact absurd (Finmap.mem_of_lookup_eq_some ((hm _ _).mp hb).1) h
    have hstop : removeAncestors n (m.erase r.id) r.parent = (m.erase r.id, []) := by
      cases n with
      | zero => rfl
      | succ n => rw [removeAncestors, hend]
    grind [removeAncestors, Without.lookup_of_not, Anc.refl, Without.erase, Anc.eq_of_root]
  | @snoc l p x hl hp ih =>
    obtain ⟨n, rfl⟩ : ∃ k, n = k + 1 := ⟨n - 1, by omega⟩
    obtain ⟨hx, -, hpid, hlen, -⟩ := hs.par_spec hp
    obtain ⟨h1, h2⟩ := ih (n := n) (hm.erase hs hx) (fun y hy h =>
      h.elim (hV y (hy.step hp)) (hs.graded.ne_of_anc_parent hp hy)) (by omega)
    grind [removeAncestors, Anc.iff_of_parent, Without.lookup_of_not, Anc.refl]

/-! ## The tree after a move of the LIB -/

/-- `s'` is the part of `s` above `r`, with `r` as the LIB. -/
structure Prunes (s : Branches Id) (r : Branch Id) (s' : Branches Id) : Prop where
  lookup : ∀ i b, s'.branches.lookup i = some b ↔ s.branches.lookup i = some b ∧ Anc s.par r b
  tips : ∀ i, i ∈ s'.tips ↔ ∃ t, s.Has t ∧ t.id = i ∧ i ∈ s.tips ∧ Anc s.par r t
  lib : s'.lib = r.id

namespace Prunes

variable {s s' : Branches Id} {r b : Branch Id}

section

variable (hp : Prunes s r s') {p : Branch Id}
include hp

theorem has_iff : s'.Has b ↔ s.Has b ∧ Anc s.par r b :=
  hp.lookup _ _

theorem mem_iff (hs : s.Ok) {i : Id} :
    i ∈ s'.branches ↔ ∃ b, s.Has b ∧ b.id = i ∧ Anc s.par r b := by
  rw [Finmap.mem_iff]
  constructor
  · rintro ⟨b, hb⟩
    obtain ⟨h1, h2⟩ := (hp.lookup i b).mp hb
    exact ⟨b, hs.has_of_lookup h1, hs.key i b h1, h2⟩
  · rintro ⟨b, hb, rfl, hrb⟩
    exact ⟨b, (hp.lookup _ _).mpr ⟨hb, hrb⟩⟩

theorem par_above (hs : s.Ok) (h : s.par b = some p) (hrp : Anc s.par r p) : s'.par b = some p := by
  obtain ⟨hb, hpHas, hpid, -⟩ := hs.par_spec h
  have hb' : s'.Has b := hp.has_iff.mpr ⟨hb, hrp.step h⟩
  grind [par_of_has, parent, lookup]

theorem par_of (h : s'.par b = some p) : s.par b = some p ∧ Anc s.par r p := by
  have hb' : s'.Has b := by
    by_contra hb
    rw [par, if_neg hb] at h
    cases h
  obtain ⟨hb, -⟩ := hp.has_iff.mp hb'
  grind [par_of_has, parent, lookup]

theorem anc_iff (hs : s.Ok) {a : Branch Id} (ha : Anc s.par r a) :
    Anc s'.par a b ↔ Anc s.par a b := by grind [par_of, Anc.congr_of, par_above, Anc.trans]

/-- **The part above a block of the tree is a well-formed tree.** -/
theorem ok (hs : s.Ok) (hr : s.Has r) : s'.Ok where
  key i b hb := hs.key i b ((hp.lookup i b).mp hb).1
  lib := (hp.mem_iff hs).mpr ⟨r, hr, hp.lib.symm, .refl r⟩
  up b hb hne := by
    rw [hp.lib] at hne
    obtain ⟨hb, hrb⟩ := hp.has_iff.mp hb
    rcases hrb.cases_parent with rfl | ⟨p, hpar, hrp⟩
    · exact absurd rfl hne
    · obtain ⟨-, hpHas, hpid, hlen, hslot, -⟩ := hs.par_spec hpar
      grind [has_iff]
  root b hb hl := by
    rw [hp.lib] at hl
    obtain ⟨hb, -⟩ := hp.has_iff.mp hb
    obtain rfl := eq_of_id hb hr hl
    by_cases he : b.parent = b.id
    · exact .inl he
    · refine .inr fun hmem => ?_
      obtain ⟨q, hq, hqid, hbq⟩ := (hp.mem_iff hs).mp hmem
      have hpar : s.par b = some q := by
        rw [par_of_has hb, parent, if_neg he, ← hqid]
        exact hq
      have h1 := hs.graded.height_le hbq
      have h2 := hs.graded _ _ hpar
      omega
  tips i := by
    rw [hp.tips, hp.mem_iff hs]
    constructor
    · rintro ⟨t, ht, rfl, hi, hrt⟩
      refine ⟨⟨t, ht, rfl, hrt⟩, ?_⟩
      rintro c ⟨hc, hcp, hne⟩
      exact ((hs.tips _).mp hi).2 c ⟨(hp.has_iff.mp hc).1, hcp, hne⟩
    · rintro ⟨⟨t, ht, rfl, hrt⟩, hno⟩
      refine ⟨t, ht, rfl, (hs.tips _).mpr ⟨ht.mem, ?_⟩, hrt⟩
      rintro c ⟨hc, hcp, hne⟩
      -- a child of a block above `r` is above `r`
      have hpar : s.par c = some t := by
        rw [par_of_has hc, parent, hcp, if_neg (fun h => hne h.symm)]
        exact ht
      exact hno c ⟨hp.has_iff.mpr ⟨hc, hrt.step hpar⟩, hcp, hne⟩
  below b hb := by
    obtain ⟨hb, hrb⟩ := hp.has_iff.mp hb
    obtain ⟨t, ht, hti, hbt⟩ := hs.below b hb
    grind [has_iff, Anc.trans, tips, anc_iff]

end

theorem self (hs : s.Ok) (hr : s.Has r) (hrid : r.id = s.lib) : Prunes s r s where
  lookup i b := ⟨fun h => ⟨h, hs.lib_anc hr hrid (hs.has_of_lookup h)⟩, fun h => h.1⟩
  tips i := by
    constructor
    · intro hi
      obtain ⟨t, ht, rfl⟩ := hs.tip_has hi
      exact ⟨t, ht, rfl, hi, hs.lib_anc hr hrid ht⟩
    · rintro ⟨t, -, -, hi, -⟩
      exact hi
  lib := hrid.symm

end Prunes

/-! ## `updateLib` -/

namespace Branches

theorem lca_lib (s : Branches Id) (i : Id) (a b : Branch Id) :
    lca { s with lib := i } a b = s.lca a b := by
  have hlevel : ∀ n b len, level { s with lib := i } n b len = s.level n b len := by
    intro n
    induction n with
    | zero => intro b len; rfl
    | succ n ih => intro b len; simp only [level, ih]; rfl
  have hmeet : ∀ n a b, meet { s with lib := i } n a b = s.meet n a b := by
    intro n
    induction n with
    | zero => intro a b; rfl
    | succ n ih => intro a b; simp only [meet, ih]; rfl
  simp only [lca, hlevel, hmeet]

end Branches

namespace Cryptarchia

variable {c c' : Cryptarchia Id} {d : Nat} {r b : Branch Id} {infos : List (ForkDivergenceInfo Id)}

/-- `c'` is `c` after the LIB has moved to `r`, without the stale blocks. -/
structure Moves (c : Cryptarchia Id) (r : Branch Id) (c' : Cryptarchia Id)
    (pruned : PrunedBlocks Id) : Prop where
  has : c.branches.Has r
  on : Anc c.branches.par r c.localChain
  prunes : Prunes c.branches r c'.branches
  localChain : c'.localChain = c.localChain
  eras : c'.eraSchedule = c.eraSchedule
  state : c'.state = c.state
  within : c.state = .online → c.isBlockWithinK r = true
  stays : c.state = .bootstrapping → r.id = c.lib
  stale : ∀ i, i ∈ pruned.staleBlocks ↔
    ∃ b, c.branches.Has b ∧ b.id = i ∧ ¬ Anc c.branches.par b r ∧ ¬ Anc c.branches.par r b
  immutable : pruned.immutableBlocks =
    collectBySlot (((c.branches.libToTipBlocks r).dropLast.map fun b => (b.slot, b.id)).reverse)

/-- The LIB that the state asks for is a block of the local chain, online within the `k` of its era. -/
theorem stateLib_spec (hc : c.Ok) :
    ∃ r, c.stateLib = .ok r.id ∧ c.branches.Has r ∧ Anc c.branches.par r c.localChain ∧
      (c.state = .online → c.isBlockWithinK r = true) ∧
      (c.state = .bootstrapping → r.id = c.lib) := by
  unfold stateLib
  cases hst : c.state with
  | bootstrapping =>
    obtain ⟨r, hr, hrid⟩ := hc.tree.exists_lib
    exact ⟨r, by simp only [hrid], hr, hc.tree.lib_anc hr hrid hc.has, by simp, fun _ => hrid⟩
  | online =>
    cases hfind : (c.branches.libToTipBlocks c.localChain).find? c.isBlockWithinK with
    | none =>
      have hno := List.find?_eq_none.mp hfind c.localChain
        ((hc.tree.mem_libToTipBlocks hc.has).mpr (.refl _))
      simp [isBlockWithinK] at hno
    | some r =>
      have hr := (hc.tree.mem_libToTipBlocks hc.has).mp (mem_of_find?_eq_some hfind)
      exact ⟨r, rfl, hc.tree.anc_has hr hc.has, hr, fun _ => List.find?_some hfind, by simp⟩

/-- Every fork has an ancestor in common with the local chain, so `prunableForks` does not fail. -/
theorem prunableForks_eq (hc : c.Ok) (lib : Id) (ord : TipOrder Id) (hd : d ≤ c.localChain.length) :
    ∃ infos, (c.withLib lib).prunableForks ord d = .ok infos ∧
      ∀ info, info ∈ infos ↔ c.branches.Has info.tip ∧ info.tip.id ∈ c.branches.tips ∧
        info.tip.id ≠ c.tip ∧ c.branches.lca c.localChain info.tip = some info.lca ∧
        info.lca.length < c.localChain.length - d := by
  have hs := hc.tree
  let forks := (c.branches.tipList ord).filter fun t => t.id ≠ c.tip
  let info (t : Branch Id) : ForkDivergenceInfo Id := ⟨t, (c.branches.lca c.localChain t).getD t⟩
  have hforks : (c.withLib lib).nonCanonicalForks ord = .ok forks := by
    have h : (c.withLib lib).branches.tipBranches ord = _ := hs.tipBranches_eq ord
    rw [nonCanonicalForks, h]
    rfl
  have hmem : ∀ t, t ∈ forks ↔ c.branches.Has t ∧ t.id ∈ c.branches.tips ∧ t.id ≠ c.tip := by
    intro t
    simp only [forks, mem_filter, hs.mem_tipList, decide_eq_true_eq, and_assoc]
  have hinfo : ∀ t ∈ forks, (c.withLib lib).forkDivergence t = .ok (info t) := by
    intro t ht
    obtain ⟨l, hl, -⟩ := hs.lca_spec hc.has ((hmem t).mp ht).1
    have hl' : (c.withLib lib).branches.lca (c.withLib lib).localChain t = some l := by
      rw [withLib, lca_lib, hl]
    rw [forkDivergence, expect_some hl']
    simp only [info, hl]
    rfl
  refine ⟨(forks.map info).filter fun i => i.lca.length < c.localChain.length - d, ?_, fun i => ?_⟩
  · have hd' : d ≤ (c.withLib lib).localChain.length := hd
    rw [prunableForks, if_pos hd', hforks]
    simp only [bind, Except.bind, mapM_ok hinfo]
    rfl
  · rw [mem_filter, mem_map, decide_eq_true_eq]
    constructor
    · rintro ⟨⟨t, ht, rfl⟩, hlt⟩
      obtain ⟨h1, h2, h3⟩ := (hmem t).mp ht
      obtain ⟨l, hl, -⟩ := hs.lca_spec hc.has h1
      grind
    · rintro ⟨h1, h2, h3, hl, hlt⟩
      refine ⟨⟨i.tip, (hmem _).mpr ⟨h1, h2, h3⟩, ?_⟩, hlt⟩
      simp only [info, hl, Option.getD_some]

/-- The forks to prune at the move of the LIB to `r`: those that left the local chain below it. -/
theorem prunableForks_spec (hc : c.Ok) (hr : Anc c.branches.par r c.localChain)
    (ord : TipOrder Id) :
    ∃ infos, (c.withLib r.id).prunableForks ord (c.localChain.length - r.length) = .ok infos ∧
      (∀ info ∈ infos, IsFork c.branches c.localChain info) ∧
      ∀ t, (∃ info ∈ infos, info.tip = t) ↔
        c.branches.Has t ∧ t.id ∈ c.branches.tips ∧ ¬ Anc c.branches.par r t := by
  have hs := hc.tree
  have hle := hs.graded.height_le hr
  obtain ⟨infos, hinfos, hmem⟩ := prunableForks_eq hc r.id ord (Nat.sub_le _ r.length)
  refine ⟨infos, hinfos, fun info hi => ?_, fun t => ?_⟩
  · obtain ⟨h1, -, -, hl, -⟩ := (hmem info).mp hi
    exact ⟨h1, (hs.isLca_of_lca hc.has h1 hl).2⟩
  · constructor
    · rintro ⟨i, hi, rfl⟩
      obtain ⟨h1, h2, -, hl, hlt⟩ := (hmem i).mp hi
      refine ⟨h1, h2, fun hrt => ?_⟩
      have := hs.graded.height_le ((hs.isLca_of_lca hc.has h1 hl).2.last r hr hrt)
      omega
    · rintro ⟨htHas, htip, hrt⟩
      obtain ⟨l, hl, -, hlca⟩ := hs.lca_spec hc.has htHas
      refine ⟨⟨t, l⟩, (hmem _).mpr ⟨htHas, htip, fun h => ?_, hl, ?_⟩, rfl⟩
      · exact hrt (eq_of_id hc.has htHas h.symm ▸ hr)
      · show l.length < _
        by_contra hge
        exact hrt ((hs.graded.anc_of_le hr hlca.left (by omega)).trans hlca.right)

/-- Off the local chain, below the tips that leave it under `r`: neither above nor below `r`. -/
theorem offBelow_iff (hc : c.Ok) (hr : Anc c.branches.par r c.localChain)
    (htips : ∀ t, (∃ info ∈ infos, info.tip = t) ↔
      c.branches.Has t ∧ t.id ∈ c.branches.tips ∧ ¬ Anc c.branches.par r t)
    (hb : c.branches.Has b) :
    OffBelow c.branches c.localChain infos b ↔
      ¬ Anc c.branches.par b r ∧ ¬ Anc c.branches.par r b := by
  constructor
  · rintro ⟨hoff, info, hinfo, hbt⟩
    obtain ⟨-, -, hrt⟩ := (htips info.tip).mp ⟨info, hinfo, rfl⟩
    exact ⟨fun h => hoff.2 (h.trans hr), fun h => hrt (h.trans hbt)⟩
  · rintro ⟨h1, h2⟩
    obtain ⟨t, ht, htip, hbt⟩ := hc.tree.below b hb
    have hrt : ¬ Anc c.branches.par r t := fun h => (h.total hbt).elim h2 h1
    obtain ⟨info, hinfo, rfl⟩ := (htips t).mpr ⟨ht, htip, hrt⟩
    exact ⟨⟨hb, fun h => (h.total hr).elim h1 h2⟩, info, hinfo, hbt⟩

theorem updateLib_eq {ord : TipOrder Id} {lib : Id} {c₁ c₂ : Cryptarchia Id} {stale : List Id}
    {immutable : List (Nat × Id)} (h₁ : c.stateLib = .ok lib) (hne : c.branches.lib ≠ lib)
    (h₂ : (c.withLib lib).libDepth = .ok d)
    (h₃ : (c.withLib lib).pruneStaleForks ord d = .ok (c₁, stale))
    (h₄ : c₁.pruneImmutableBlocks = .ok (c₂, immutable)) :
    c.updateLib ord = .ok (c₂, ⟨stale.toFinset, collectBySlot immutable⟩) := by
  rw [updateLib, h₁]
  simp only [bind, Except.bind, if_neg hne, h₂, h₃, h₄]
  rfl

/-- The depth of the new LIB is the distance to the tip. -/
theorem libDepth_withLib (hr : c.branches.Has r) (hle : r.length ≤ c.localChain.length) :
    (c.withLib r.id).libDepth = .ok (c.localChain.length - r.length) := by
  have hindex : (c.withLib r.id).libBranch = .ok r := by
    rw [libBranch, index, show (c.withLib r.id).branches.branches.lookup
      (c.withLib r.id).lib = some r from hr]
  have hle' : r.length ≤ (c.withLib r.id).localChain.length := hle
  rw [libDepth, hindex]
  exact if_pos hle'

theorem Ok.libDepth_eq (hc : c.Ok) (hr : c.branches.Has r) (hid : r.id = c.lib) :
    c.libDepth = .ok (c.localChain.length - r.length) := by
  have h := libDepth_withLib hr (hc.tree.lib_length_le hr hid hc.has)
  rwa [hid] at h

/-- Nothing is pruned while the LIB stays: every block is above it. -/
theorem Moves.of_lib (hc : c.Ok) (hr : c.branches.Has r) (hid : r.id = c.branches.lib)
    (hwithin : c.state = .online → c.isBlockWithinK r = true) : c.Moves r c .new := by
  have hs := hc.tree
  refine ⟨hr, hs.lib_anc hr hid hc.has, .self hs hr hid, rfl, rfl, rfl, hwithin, fun _ => hid,
    fun i => ?_, ?_⟩
  · grind [PrunedBlocks.new, Branches.Ok.lib_anc]
  · rw [hs.libToTipBlocks_spec hr hid .nil]
    rfl

/-- The blocks that are neither stale nor below the new LIB are those above it. -/
theorem kept_iff (hs : c.branches.Ok) {p : Branch Id} (hp : c.branches.par r = some p) :
    ¬ ((¬ Anc c.branches.par b r ∧ ¬ Anc c.branches.par r b) ∨ Anc c.branches.par b p) ↔
      Anc c.branches.par r b := by
  constructor
  · grind [Anc.iff_of_parent]
  · rintro hrb (⟨-, h⟩ | h)
    · exact h hrb
    · exact hs.graded.ne_of_anc_parent hp (hrb.trans h) rfl

/-- The tips above the new LIB are those of no pruned fork. -/
theorem tip_kept_iff (hs : c.branches.Ok) (htips : ∀ t, (∃ info ∈ infos, info.tip = t) ↔
      c.branches.Has t ∧ t.id ∈ c.branches.tips ∧ ¬ Anc c.branches.par r t) {i : Id} :
    (i ∈ c.branches.tips ∧ ∀ info ∈ infos, info.tip.id ≠ i) ↔
      ∃ t, c.branches.Has t ∧ t.id = i ∧ i ∈ c.branches.tips ∧ Anc c.branches.par r t := by
  constructor
  · rintro ⟨hi, hno⟩
    obtain ⟨x, hx, rfl⟩ := hs.tip_has hi
    grind
  · grind [eq_of_id]

/-- **`updateLib` never fails** and leaves the tree above a block of the local chain. -/
theorem updateLib_spec (hc : c.Ok) (ord : TipOrder Id) :
    ∃ r c' pruned, c.updateLib ord = .ok (c', pruned) ∧ c.Moves r c' pruned := by
  have hs := hc.tree
  obtain ⟨r, hlib, hr, hon, hwithin, hstays⟩ := stateLib_spec hc
  obtain ⟨q, hq, hqid⟩ := hs.exists_lib
  have hqr := hs.lib_anc hq hqid hr
  obtain ⟨l, hl⟩ := Path.of_anc hqr
  by_cases hsame : c.branches.lib = r.id
  · refine ⟨r, c, .new, ?_, .of_lib hc hr hsame.symm hwithin⟩
    rw [updateLib, hlib]
    simp only [bind, Except.bind, if_pos hsame]
    rfl
  cases hl with
  | nil => exact absurd hqid.symm hsame
  | @snoc l p r hl hp =>
  obtain ⟨-, hpHas, hpid, hlen, -⟩ := hs.par_spec hp
  obtain ⟨infos, hinfos, hforks, htips⟩ := prunableForks_spec hc hon ord
  have hstart : Without c.branches (fun _ => False) (c.withLib r.id).branches.branches :=
    fun i b => by simp [withLib]
  obtain ⟨h1, h2, h3, h4, h5⟩ := pruneForks_spec hs hforks hstart (fun _ _ h => h.elim)
  -- the local chain is still in the map, with the new LIB
  have hkeep : ∀ y, Anc c.branches.par y c.localChain →
      ¬ (False ∨ OffBelow c.branches c.localChain infos y) := fun y hy h =>
    h.elim id fun h => h.1.2 hy
  obtain ⟨g1, g2⟩ := removeAncestors_spec hs hq hqid hl (n := r.length + 1) h1
    (fun y hy => hkeep y ((hy.step hp).trans hon)) (by omega)
  generalize htr : pruneForks (c.withLib r.id).branches infos = t at h1 h2 h3 h4 h5 g1 g2
  generalize hur : removeAncestors (r.length + 1) t.1.branches p.id = u at g1 g2
  have hprune : (c.withLib r.id).pruneStaleForks ord (c.localChain.length - r.length) =
      .ok ({ c with branches := t.1 }, t.2) := by
    rw [pruneStaleForks, hinfos]
    simp only [bind, Except.bind, htr]
    rfl
  have himm : pruneImmutableBlocks { c with branches := t.1 } =
      .ok ({ c with branches := { t.1 with branches := u.1 } }, u.2) := by
    have hlook : t.1.branches.lookup t.1.lib = some r := by
      rw [h5]; exact h1 _ _ |>.mpr ⟨hr, hkeep r hon⟩
    rw [pruneImmutableBlocks, libBranch, index, lib]
    simp only [hlook, bind, Except.bind, ← hpid, hur]
    rfl
  refine ⟨r, _, _, updateLib_eq hlib hsame (libDepth_withLib hr (hs.graded.height_le hon)) hprune
    himm, hr, hon, ⟨fun i b => ?_, fun i => ?_, h5⟩, rfl, rfl, rfl, hwithin, hstays,
    fun i => ?_, ?_⟩
  · rw [g1 i b]
    refine and_congr_right fun hb => ?_
    simp only [false_or, offBelow_iff hc hon htips (hs.has_of_lookup hb)]
    exact kept_iff hs hp
  · rw [h4]
    exact tip_kept_iff hs htips
  · rw [mem_toFinset, h3]
    constructor
    · rintro ⟨b, rfl, hb, -⟩
      exact ⟨b, hb.1.1, rfl, (offBelow_iff hc hon htips hb.1.1).mp hb⟩
    · rintro ⟨b, hb, rfl, hno⟩
      exact ⟨b, rfl, (offBelow_iff hc hon htips hb).mpr hno, id⟩
  · rw [hs.libToTipBlocks_spec hr hqid (hl.snoc hp), g2, ← cons_append, dropLast_concat]

end Cryptarchia

end Logos.Engine
