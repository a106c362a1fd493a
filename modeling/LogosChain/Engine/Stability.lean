import LogosChain.Engine.Finality

/-!
# Stability of the fork choice, and the longest chain

The fork choice gives the local tip in every order of the tips exactly if no tip is preferred to it.
After a received block this is so online, if `k` does not fall from one era to a later one. While
bootstrapping a chain can be preferred for its length one way and for its density the other way.
-/

namespace Logos.Engine

open Base

variable {Id : Type} [DecidableEq Id]

/-- The order that takes the tips with `f` last. -/
def TipOrder.defer (ord : TipOrder Id) (f : Id → Bool) : TipOrder Id where
  enumerate s := (ord.enumerate s).filter (!f ·) ++ (ord.enumerate s).filter f
  nodup s := by grind [nodup]
  mem s i := by grind [mem]

/-- `k` does not fall from an era to a later one. -/
def Rising (eras : EraSchedule Config) : Prop :=
  ∀ s s', s ≤ s' → (eras.atSlot s).parameters.securityParam ≤ (eras.atSlot s').parameters.securityParam

namespace Cryptarchia

variable {c c' mid : Cryptarchia Id} {r t b p : Branch Id} {pruned : PrunedBlocks Id}
  {ord : TipOrder Id} {out : ReceiveBlockOutcome Id}

/-! ## When every order gives the local tip -/

/-- If all tips that are preferred to the local one are taken last, one of them wins. -/
theorem exists_forkChoice_prefers (hc : c.Ok) (ord : TipOrder Id) (ht : c.branches.Has t)
    (htip : t.id ∈ c.branches.tips) (hp : c.prefers c.localChain t = true) :
    ∃ ord' b, c.forkChoice ord' = .ok b ∧ c.prefers c.localChain b = true := by
  let f (i : Id) : Bool := ((c.branches.branches.lookup i).map (c.prefers c.localChain)).getD false
  have hf : ∀ b, c.branches.Has b → f b.id = c.prefers c.localChain b := by
    intro b hb
    simp only [f, show c.branches.branches.lookup b.id = some b from hb, Option.map_some,
      Option.getD_some]
  refine ⟨ord.defer f, _, forkChoice_eq hc.tree hc.has _, ?_⟩
  have hsplit : c.branches.tipList (ord.defer f) =
      ((ord.enumerate c.branches.tips).filter (!f ·)).filterMap c.branches.branches.lookup ++
        ((ord.enumerate c.branches.tips).filter f).filterMap c.branches.branches.lookup :=
    List.filterMap_append
  rw [hsplit]
  have hmem := choose_append_of_prefers (P := c.prefers) (c := c.localChain) (x := t)
    (l := ((ord.enumerate c.branches.tips).filter (!f ·)).filterMap c.branches.branches.lookup)
    (m := ((ord.enumerate c.branches.tips).filter f).filterMap c.branches.branches.lookup) ?_
    (List.mem_filterMap.mpr ⟨t.id, List.mem_filter.mpr
      ⟨(ord.mem _ _).mpr htip, (hf t ht).trans hp⟩, ht⟩) hp
  · grind
  · grind

theorem forkChoice_eq_local_iff (hc : c.Ok) (ord : TipOrder Id) :
    (∀ ord, c.forkChoice ord = .ok c.localChain) ↔
      ∀ t, c.branches.Has t → t.id ∈ c.branches.tips → c.prefers c.localChain t = false := by
  constructor
  · intro h t ht htip
    rw [← Bool.not_eq_true]
    intro hp
    obtain ⟨ord', b, hb, hbp⟩ := exists_forkChoice_prefers hc ord ht htip hp
    grind [prefers_self, Ok.tree, Ok.has]
  · grind [forkChoice_eq, choose_eq_self, Ok.tree, Ok.has, Branches.Ok.mem_tipList]

/-! ## Online with a `k` that does not fall -/

/-- `x` and `y` have a common ancestor within its `k` below `x`. -/
def Within (c : Cryptarchia Id) (x y : Branch Id) : Prop :=
  ∃ a, Anc c.branches.par a x ∧ Anc c.branches.par a y ∧ x.length ≤ a.length + c.kAt a.slot

/-- Online, `y` is preferred if it is longer and forks from `x` within the `k` of the fork. -/
theorem prefers_online (hs : c.branches.Ok) (hst : c.state = .online) (hk : Rising c.eraSchedule)
    {x y : Branch Id} (hx : c.branches.Has x) (hy : c.branches.Has y) :
    c.prefers x y = true ↔ c.Within x y ∧ x.length < y.length := by
  obtain ⟨l, hl, -, hlca⟩ := hs.lca_spec hx hy
  rw [prefers_eq hl, prefersAt, hst]
  simp only [decide_eq_true_eq]
  refine and_congr_left fun _ => ⟨fun h => ⟨l, hlca.left, hlca.right, by omega⟩, ?_⟩
  rintro ⟨a, hax, hay, ha⟩
  have hal := hlca.last a hax hay
  have hlen := hs.graded.height_le hal
  have hka : c.kAt a.slot ≤ c.kAt l.slot := hk _ _ (hs.slot_le hal)
  omega

theorem climbs_online (hs : c.branches.Ok) (hst : c.state = .online) (hk : Rising c.eraSchedule) :
    Climbs c.branches.Has c.prefers c.Within Branch.length where
  iff x y hx hy := prefers_online hs hst hk hx hy
  refl x := ⟨x, .refl x, .refl x, Nat.le_add_right _ _⟩
  trans x y z hxy := by
    rintro ⟨a, hax, hay, ha⟩ ⟨b, hby, hbz, hb⟩
    rcases hay.total hby with hab | hba
    · exact ⟨a, hax, hab.trans hbz, ha⟩
    · exact ⟨b, hba.trans hax, hbz, by omega⟩

theorem Moves.prefers_of (hm : c.Moves r c' pruned) (hc : c.Ok) (hst : c.state = .online)
    (hk : Rising c.eraSchedule) {x y : Branch Id} (hx : c'.branches.Has x) (hy : c'.branches.Has y)
    (hp : c'.prefers x y = true) : c.prefers x y = true := by
  have hx' := (hm.prunes.has_iff.mp hx).1
  have hy' := (hm.prunes.has_iff.mp hy).1
  have hs' := hm.prunes.ok hc.tree hm.has
  rw [prefers_online hs' (hm.state.trans hst) (hm.eras ▸ hk) hx hy] at hp
  obtain ⟨⟨a, hax, hay, ha⟩, hlt⟩ := hp
  have hsub : ∀ b p, c'.branches.par b = some p → c.branches.par b = some p :=
    fun b p h => (hm.prunes.par_of h).1
  unfold kAt at ha
  rw [hm.eras] at ha
  exact (prefers_online hc.tree hst hk hx' hy').mpr ⟨⟨a, hax.mono hsub, hay.mono hsub, ha⟩, hlt⟩

/-- After a block received online no tip is preferred. -/
theorem Receives.maximal {r : Branch Id} (hr : c.Receives ord b c' out p mid r) (hc : c.Ok)
    (hf : c.branches.Fresh b.id) (hst : c'.state = .online) (hk : Rising c'.eraSchedule)
    (ht : c'.branches.Has t) (htip : t.id ∈ c'.branches.tips) :
    c'.prefers c'.localChain t = false := by
  have hmid := hr.adopts.ok hc hf
  have hst' : mid.state = .online := hr.moves.state.symm.trans hst
  have hk' : Rising mid.eraSchedule := hr.moves.eras ▸ hk
  rw [← Bool.not_eq_true]
  intro hp
  have hp' := hr.moves.prefers_of hmid hst' hk' (hr.moves.ok hmid).has ht hp
  obtain ⟨t', ht', hid, htip', -⟩ := (hr.moves.prunes.tips t.id).mp htip
  obtain rfl := Branches.eq_of_id ht' (hr.moves.prunes.has_iff.mp ht).1 hid
  have htl : t' ∈ mid.branches.tipList ord := hmid.tree.mem_tipList.mpr ⟨ht', htip'⟩
  have hmax := (climbs_online hmid.tree hst' hk').choose_maximal
    (hr.adopts.adds.has_old hf hc.has) (fun x hx => (hmid.tree.mem_tipList.mp hx).1) htl
  rw [hr.moves.localChain, hr.adopts.choice, hmax] at hp'
  cases hp'

/-! ## The longest chain -/

/-- No tip is longer than the local chain. -/
def Longest (c : Cryptarchia Id) : Prop :=
  ∀ t, c.branches.Has t → t.id ∈ c.branches.tips → t.length ≤ c.localChain.length

/-- Online, a new block is adopted exactly if it is longer. -/
theorem Adopts.longest (ha : c.Adopts ord p b c') (hc : c.Ok) (hf : c.branches.Fresh b.id)
    (hst : c.state = .online) (hk : Rising c.eraSchedule) (hlib : c.LibWithinK) (hl : c.Longest) :
    (c'.localChain = c.localChain ∧ b.length ≤ c.localChain.length) ∨
      (c'.localChain = b ∧ c.localChain.length < b.length) := by
  have hc' := ha.ok hc hf
  have hclimb := climbs_online hc'.tree (ha.state.trans hst) (ha.eras.symm ▸ hk)
  have hold := ha.adds.has_old hf hc.has
  have htips : ∀ t ∈ c'.branches.tipList ord,
      c'.branches.Has t ∧ (t = b ∨ t.length ≤ c.localChain.length) := by
    intro t ht
    obtain ⟨ht, htip⟩ := hc'.tree.mem_tipList.mp ht
    refine ⟨ht, ?_⟩
    rcases ha.adds.has_iff.mp ht with rfl | ⟨hne, htc⟩
    · exact .inl rfl
    · exact .inr (hl t htc ((ha.adds.mem_tips.mp htip).resolve_left hne).2)
  rcases Nat.lt_or_ge c.localChain.length b.length with hlt | hge
  · refine .inr ⟨?_, hlt⟩
    obtain ⟨hR, hlen, -⟩ := hclimb.choose_ge hold fun t ht => (htips t ht).1
    have hbl : b ∈ c'.branches.tipList ord :=
      hc'.tree.mem_tipList.mpr ⟨ha.adds.has_new, ha.adds.mem_tips.mpr (.inl rfl)⟩
    have hmax := hclimb.choose_maximal hold (fun t ht => (htips t ht).1) hbl
    rw [← ha.choice] at hR hlen hmax
    by_contra hne
    have hshort : c'.localChain.length ≤ c.localChain.length := by
      rw [ha.choice] at hne ⊢
      grind [choose_mem]
    obtain ⟨l, hlHas, hlid, hwithin⟩ := hlib hst
    have hlHas' := ha.adds.has_old hf hlHas
    have hlid' : l.id = c'.branches.lib := hlid.trans ha.adds.lib.symm
    rw [isBlockWithinK, decide_eq_true_eq, kAt, ← ha.eras] at hwithin
    have hw : c'.Within c'.localChain b :=
      ⟨l, hc'.tree.lib_anc hlHas' hlid' hR, hc'.tree.lib_anc hlHas' hlid' ha.adds.has_new, by
        unfold kAt; omega⟩
    have := (hclimb.iff _ _ hR ha.adds.has_new).mpr ⟨hw, by omega⟩
    rw [hmax] at this
    cases this
  · refine .inl ⟨?_, hge⟩
    rw [ha.choice, choose_eq_self]
    intro t ht
    obtain ⟨htHas, htlen⟩ := htips t ht
    rw [← Bool.not_eq_true, hclimb.iff _ _ hold htHas]
    rintro ⟨-, hlt⟩
    rcases htlen with rfl | htlen <;> omega

theorem Moves.longest (hm : c.Moves r c' pruned) (hl : c.Longest) : c'.Longest := by
  intro t ht htip
  obtain ⟨t', ht', hid, htip', -⟩ := (hm.prunes.tips t.id).mp htip
  obtain rfl := Branches.eq_of_id ht' (hm.prunes.has_iff.mp ht).1 hid
  rw [hm.localChain]
  exact hl t' ht' htip'

/-- What holds along the runs from a fresh online start. -/
structure OnlineOk (c : Cryptarchia Id) : Prop where
  ok : c.Ok
  state : c.state = .online
  rising : Rising c.eraSchedule
  lib : c.LibWithinK
  longest : c.Longest

theorem Receives.longest (hr : c.Receives ord b c' out p mid r) (h : c.OnlineOk)
    (hf : c.branches.Fresh b.id) :
    c'.Longest ∧ ((c'.localChain = c.localChain ∧ b.length ≤ c.localChain.length) ∨
      (c'.localChain = b ∧ c.localChain.length < b.length)) := by
  have hcase := hr.adopts.longest h.ok hf h.state h.rising h.lib h.longest
  refine ⟨hr.moves.longest fun t ht htip => ?_, hr.moves.localChain.symm ▸ hcase⟩
  have htlen : t = b ∨ t.length ≤ c.localChain.length := by
    rcases hr.adopts.adds.has_iff.mp ht with rfl | ⟨hne, htc⟩
    · exact .inl rfl
    · exact .inr (h.longest t htc ((hr.adopts.adds.mem_tips.mp htip).resolve_left hne).2)
  grind

theorem Step.onlineOk {ev : Event Id} (hs : Step c ev c') (h : c.OnlineOk) : c'.OnlineOk := by
  obtain ⟨ord, b, p, mid, r, out, -, hf, hr⟩ | ⟨i, e, -, rfl⟩ | ⟨r, pruned, -, hm⟩ := hs.spec h.ok
  · exact ⟨hs.ok h.ok, hr.moves.state.trans (hr.adopts.state.trans h.state),
      hs.eras h.ok ▸ h.rising, hr.moves.libWithinK, (hr.longest h hf).1⟩
  · exact h
  · exact ⟨hs.ok h.ok, hm.state, hs.eras h.ok ▸ h.rising, hm.libWithinK, hm.longest h.longest⟩

end Cryptarchia

open Cryptarchia

variable {id parent : Id} {eras : EraSchedule Config} {slot length : Nat} {us : List Nat}
  {evs : List (Event Id)} {c c' : Cryptarchia Id}

theorem fromLib_onlineOk (hk : Rising eras) :
    (fromLib id parent eras .online slot length us).OnlineOk where
  ok := fromLib_ok ..
  state := rfl
  rising := hk
  lib := fromLib_libWithinK id parent eras .online slot length us
  longest t ht _ := by
    rw [fromLib_has.mp ht]
    exact Nat.le_refl _

theorem rising_of_eq {k : Nat} (hk : ∀ e ∈ eras.iter, e.parameters.securityParam = k) :
    Rising eras := by
  intro s s' _
  rw [hk _ (eras.atSlot_mem_iter s), hk _ (eras.atSlot_mem_iter s')]

/-- **The longest-chain rule** along every run from a fresh online start with one `k`. -/
theorem longest_of_run {k : Nat} (hk : ∀ e ∈ eras.iter, e.parameters.securityParam = k)
    (hrun : Run Step (fromLib id parent eras .online slot length us) evs c) :
    c.Longest ∧ ∀ ord i p s us' c' out, c.branches.Fresh i →
      c.receiveBlock ord i p s us' = .ok (c', out) →
      c'.Longest ∧ (c'.localChain = c.localChain ∨ c'.tip = i) ∧
        ∀ q, c.branches.branches.lookup p = some q → q.length + 1 ≤ c.localChain.length →
          c'.localChain = c.localChain := by
  have h : c.OnlineOk :=
    hrun.invariant (fromLib_onlineOk (rising_of_eq hk)) fun _ _ _ h hs => hs.onlineOk h
  refine ⟨h.longest, fun ord i p s us' c' out hf hrec => ?_⟩
  obtain ⟨b, q, mid, r, hr, rfl, rfl, rfl, -⟩ := receiveBlock_ok h.ok hf hrec
  obtain ⟨hl, hcase⟩ := hr.longest h hf
  refine ⟨hl, hcase.imp (fun h => h.1) (fun h => congrArg Branch.id h.1), fun q' hq' hle => ?_⟩
  have hq : c.branches.branches.lookup b.parent = some q :=
    hr.adopts.adds.parent_id ▸ hr.adopts.adds.parent
  rw [hq] at hq'
  cases hq'
  have hlen := hr.adopts.adds.length
  grind

/-- A block as long as the local chain, then a longer one. -/
theorem longest_of_tie_run : ∃ evs c, Run Step (sample 1 .online) evs c ∧ c.tip = 4 ∧
    c.Longest := by
  obtain ⟨evs, c, hrun, hc⟩ := exists_run .ascending (sample 1 .online)
    [.block 1 0 1, .block 2 1 2, .block 3 1 3, .block 4 3 4] (fun r => r.2.tip) (a := 4) (by decide)
  exact ⟨evs, c, hrun, hc, (longest_of_run (securityParam_sample 1) hrun).1⟩

theorem Cryptarchia.OnlineOk.length_le (h : c.OnlineOk) (hb : c.branches.Has b) :
    b.length ≤ c.localChain.length := by
  obtain ⟨t, ht, htip, hbt⟩ := h.ok.tree.below b hb
  exact (h.ok.tree.graded.height_le hbt).trans (h.longest t ht htip)

/-- Nodes that started online and have the tips of each other follow chains of one length. -/
theorem shared_tips_same_length {k : Nat} {id' parent' : Id} {slot' length' : Nat} {us' : List Nat}
    {evs' : List (Event Id)} (hk : ∀ e ∈ eras.iter, e.parameters.securityParam = k)
    (hrun : Run Step (fromLib id parent eras .online slot length us) evs c)
    (hrun' : Run Step (fromLib id' parent' eras .online slot' length' us') evs' c')
    (htip : c'.branches.Has c.localChain) (htip' : c.branches.Has c'.localChain) :
    c.localChain.length = c'.localChain.length := by
  have h : c.OnlineOk :=
    hrun.invariant (fromLib_onlineOk (rising_of_eq hk)) fun _ _ _ h hs => hs.onlineOk h
  have h' : c'.OnlineOk :=
    hrun'.invariant (fromLib_onlineOk (rising_of_eq hk)) fun _ _ _ h hs => hs.onlineOk h
  exact le_antisymm (h'.length_le htip) (h.length_le htip')

/-- Two blocks of one length, received in both orders: the nodes follow different ones. -/
theorem shared_tips_of_tie : ∃ evs c evs' c', Run Step (sample 1 .online) evs c ∧
    Run Step (sample 1 .online) evs' c' ∧ c.tip = 2 ∧ c'.tip = 3 ∧
      c.localChain.length = c'.localChain.length := by
  obtain ⟨evs, c, hrun, hc⟩ := exists_run .ascending (sample 1 .online)
    [.block 1 0 1, .block 2 1 2, .block 3 1 3]
    (fun r => (r.2.localChain, r.2.branches.branches.lookup 3)) rfl
  obtain ⟨evs', c', hrun', hc'⟩ := exists_run .ascending (sample 1 .online)
    [.block 1 0 1, .block 3 1 3, .block 2 1 2]
    (fun r => (r.2.localChain, r.2.branches.branches.lookup 2)) rfl
  obtain ⟨htip, hother⟩ := Prod.mk.inj hc
  obtain ⟨htip', hother'⟩ := Prod.mk.inj hc'
  exact ⟨evs, c, evs', c', hrun, hrun', congrArg Branch.id htip, congrArg Branch.id htip',
    shared_tips_same_length (securityParam_sample 1) hrun hrun' (htip ▸ hother')
      (htip' ▸ hother)⟩

/-- **The fork choice again**, after a received block: every order gives the local tip exactly if no
tip is preferred to it, as online with a `k` that does not fall. -/
theorem forkChoice_after_receive {state : State} {ord : TipOrder Id} {i p : Id} {s : Nat}
    {us' : List Nat} {out : ReceiveBlockOutcome Id}
    (hrun : Run Step (fromLib id parent eras state slot length us) evs c) (hf : c.branches.Fresh i)
    (hrec : c.receiveBlock ord i p s us' = .ok (c', out)) :
    ((∀ ord', c'.forkChoice ord' = .ok c'.localChain) ↔
      ∀ t, c'.branches.Has t → t.id ∈ c'.branches.tips → c'.prefers c'.localChain t = false) ∧
    (c'.state = .online → Rising eras → ∀ ord', c'.forkChoice ord' = .ok c'.localChain) := by
  have hc := run_ok hrun (fromLib_ok id parent eras state slot length us)
  obtain ⟨b, q, mid, r, hr, rfl, rfl, rfl, -⟩ := receiveBlock_ok hc hf hrec
  have hc' := hr.moves.ok (hr.adopts.ok hc hf)
  have hiff := forkChoice_eq_local_iff hc' ord
  refine ⟨hiff, fun hst hk => hiff.mpr fun t ht htip => hr.maximal hc hf hst ?_ ht htip⟩
  have heras := (run_libWithinK hrun (fromLib_ok id parent eras state slot length us)
    (fromLib_libWithinK id parent eras state slot length us)).2.2
  rw [hr.moves.eras, hr.adopts.eras, heras]
  exact hk

/-- Online, two chains of one length. -/
theorem forkChoice_after_receive_tie : ∃ c : Cryptarchia Nat, c.tip = 2 ∧
    c.branches.tips = {2, 3} ∧ ∀ ord, c.forkChoice ord = .ok c.localChain := by
  obtain ⟨evs, c₁, c₂, out, hrun, hf, hrec, hc⟩ := exists_received .ascending (sample 1 .online)
    [.block 1 0 1, .block 2 1 2] 3 1 3
    (fun r => (r.2.2.tip, r.2.2.branches.tips, decide (r.2.2.state = .online)))
    (a := (2, {2, 3}, true)) (by decide)
  refine ⟨c₂, congrArg (·.1) hc, congrArg (·.2.1) hc, ?_⟩
  have hst : c₂.state = .online := of_decide_eq_true (congrArg (·.2.2) hc)
  exact (forkChoice_after_receive hrun hf hrec).2 hst
    (rising_of_eq (securityParam_sample 1))

def fallingEras : EraSchedule Config :=
  ⟨⟨0, 0, sampleConfig 9⟩, [(1, ⟨10, 0, sampleConfig 0⟩)], rfl, by simp, by simp⟩

/-- Not stable while bootstrapping (the chain of 2 is denser than the longer chain of 5), nor online
with a falling `k` (the chain of 7 forks in the second era, that of 11 in the first). -/
theorem forkChoice_not_stable :
    (∃ evs c₁ c₂ out, Run Step (sample 1 .bootstrapping) evs c₁ ∧ c₁.branches.Fresh 5 ∧
      c₁.receiveBlock .ascending 5 4 6 [] = .ok (c₂, out) ∧ c₂.tip = 5 ∧
      ((c₂.forkChoice (TipOrder.ascending.defer (· == 2))).toOption.map (·.id)) = some 2) ∧
    (∃ evs c₁ c₂ out, Run Step (fromGenesis 0 fallingEras .online) evs c₁ ∧
      c₁.branches.Fresh 11 ∧ c₁.receiveBlock .ascending 11 10 23 [] = .ok (c₂, out) ∧
      c₂.tip = 11 ∧ ((c₂.forkChoice .ascending).toOption.map (·.id)) = some 7) := by
  constructor
  · obtain ⟨evs, c₁, c₂, out, hrun, hf, hrec, hc⟩ := exists_received .ascending
      (sample 1 .bootstrapping) [.block 1 0 1, .block 2 1 2, .block 3 0 3, .block 4 3 5] 5 4 6
      (fun r => (r.2.2.tip,
        (r.2.2.forkChoice (TipOrder.ascending.defer (· == 2))).toOption.map (·.id)))
      (a := (5, some 2)) (by decide)
    grind
  · obtain ⟨evs, c₁, c₂, out, hrun, hf, hrec, hc⟩ := exists_received .ascending
      (fromGenesis 0 fallingEras .online) [.block 1 0 10, .block 2 1 11, .block 3 2 12,
        .block 4 1 13, .block 5 4 14, .block 6 5 15, .block 7 6 16, .block 8 0 20, .block 9 8 21,
        .block 10 9 22] 11 10 23
      (fun r => (r.2.2.tip, (r.2.2.forkChoice .ascending).toOption.map (·.id)))
      (a := (11, some 7)) (by decide)
    grind

end Logos.Engine
