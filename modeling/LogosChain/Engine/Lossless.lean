import LogosChain.Engine.History

/-!
# Pruning is exact and lossless

A block that leaves the tree is reported once, as stale or as immutable. The immutable blocks are
reported by their slots, so this needs that each block is later than its parent: two blocks of one
slot on one chain would share an entry.
-/

namespace Logos.Engine

open Base

variable {Id : Type}

/-- The ids of the immutable blocks. -/
def PrunedBlocks.immutableIds (p : PrunedBlocks Id) : Multiset Id :=
  p.immutableBlocks.entries.map fun e => e.2

theorem PrunedBlocks.mem_immutableIds {p : PrunedBlocks Id} {i : Id} :
    i ∈ p.immutableIds ↔ ∃ slot, p.immutableBlocks.lookup slot = some i := by
  simp [immutableIds, Multiset.mem_map, Finmap.lookup_eq_some_iff]

variable [DecidableEq Id]

namespace Branches

variable {s s' : Branches Id}

/-- Each block of the tree is later than its parent. -/
def Strict (s : Branches Id) : Prop := ∀ b p, s.par b = some p → p.slot < b.slot

theorem Strict.slot_lt (hs : s.Strict) {a b : Branch Id} (hab : Anc s.par a b) (hne : a ≠ b) :
    a.slot < b.slot := by
  induction hab with
  | refl => exact absurd rfl hne
  | @tail p b _ hp ih =>
    have hlt := hs b p hp
    grind

theorem Strict.eq_of_slot (hs : s.Strict) {a b r : Branch Id} (ha : Anc s.par a r)
    (hb : Anc s.par b r) (h : a.slot = b.slot) : a = b := by
  by_contra hne
  rcases ha.total hb with hab | hba
  · have := hs.slot_lt hab hne
    omega
  · have := hs.slot_lt hba (Ne.symm hne)
    omega

theorem Strict.adds (hs : s.Strict) (hsOk : s.Ok) {p b : Branch Id} (ha : s.Adds p b s')
    (hf : s.Fresh b.id) (hlt : p.slot < b.slot) : s'.Strict := by
  intro x q hq
  obtain ⟨hx, -⟩ := (ha.ok hsOk hf).par_spec hq
  rcases ha.has_iff.mp hx with rfl | ⟨-, hx⟩
  · rw [ha.par_new hf] at hq
    cases hq
    exact hlt
  · rw [ha.par_old hf hx] at hq
    exact hs x q hq

theorem Strict.prunes (hs : s.Strict) {r : Branch Id} (hp : Prunes s r s') : s'.Strict :=
  fun b p hb => hs b p (hp.par_of hb).1

end Branches

/-- The proper ancestors of `r` by slot, and the blocks off its chain. -/
structure Exact (s : Branches Id) (r : Branch Id) (pruned : PrunedBlocks Id) : Prop where
  immutable : ∀ slot i, pruned.immutableBlocks.lookup slot = some i ↔
    ∃ b, s.Has b ∧ b.slot = slot ∧ b.id = i ∧ Anc s.par b r ∧ b ≠ r
  stale : ∀ i, i ∈ pruned.staleBlocks ↔
    ∃ b, s.Has b ∧ b.id = i ∧ ¬ Anc s.par b r ∧ ¬ Anc s.par r b

namespace Cryptarchia

variable {c c' : Cryptarchia Id} {r : Branch Id} {pruned : PrunedBlocks Id}

variable (hm : c.Moves r c' pruned) (hc : c.Ok) (hs : c.branches.Strict)
include hm hc hs

theorem Moves.exact : Exact c.branches r pruned where
  immutable slot i := by
    have hmem := fun a => hc.tree.mem_libToTipBlocks_dropLast (a := a) hm.has
    have hnd := (hc.tree.nodup_libToTipBlocks hm.has).sublist (List.dropLast_sublist _)
    rw [hm.immutable, collectBySlot, Map.lookup_foldl_insert]
    · grind [Branches.Ok.anc_has, Ok.tree, has]
    · rw [List.map_reverse, List.nodup_reverse, List.map_map]
      grind [List.Nodup.map_on, Branches.Strict.eq_of_slot]
  stale := hm.stale

/-- A block of the tree stays in it or is reported in one way. -/
theorem Moves.partition (i : Id) :
    (if i ∈ c'.branches.branches then 1 else 0) + (if i ∈ pruned.staleBlocks then 1 else 0) +
      (if i ∈ pruned.immutableIds then 1 else 0) = if i ∈ c.branches.branches then 1 else 0 := by
  have hex := hm.exact hc hs
  have htree := hm.prunes.mem_iff hc.tree (i := i)
  have himm : i ∈ pruned.immutableIds ↔
      ∃ b, c.branches.Has b ∧ b.id = i ∧ Anc c.branches.par b r ∧ b ≠ r := by
    rw [PrunedBlocks.mem_immutableIds]
    constructor
    · rintro ⟨slot, h⟩
      obtain ⟨b, hb, -, hid, h⟩ := (hex.immutable slot i).mp h
      exact ⟨b, hb, hid, h⟩
    · rintro ⟨b, hb, hid, h⟩
      exact ⟨b.slot, (hex.immutable _ _).mpr ⟨b, hb, rfl, hid, h⟩⟩
  have hstale := hex.stale i
  by_cases hi : i ∈ c.branches.branches
  · obtain ⟨b, hb, rfl⟩ := hc.tree.exists_has hi
    -- the three descriptions are about the one block with this id
    have hone : ∀ P : Branch Id → Prop, (∃ x, c.branches.Has x ∧ x.id = b.id ∧ P x) ↔ P b :=
      fun P => ⟨fun ⟨x, hx, he, h⟩ => Branches.eq_of_id hx hb he ▸ h, fun h => ⟨b, hb, rfl, h⟩⟩
    rw [hone] at htree himm hstale
    rw [if_pos hi]
    by_cases hrb : Anc c.branches.par r b
    · have hno : ¬ (Anc c.branches.par b r ∧ b ≠ r) := fun h =>
        h.2 (hc.tree.graded.antisymm h.1 hrb)
      rw [if_pos (htree.mpr hrb), if_neg fun h => (hstale.mp h).2 hrb, if_neg fun h => hno (himm.mp h)]
    · rw [if_neg fun h => hrb (htree.mp h)]
      by_cases hbr : Anc c.branches.par b r
      · rw [if_neg fun h => (hstale.mp h).1 hbr,
          if_pos (himm.mpr ⟨hbr, fun he => hrb (he ▸ .refl b)⟩)]
      · rw [if_pos (hstale.mpr ⟨hbr, hrb⟩), if_neg fun h => hbr (himm.mp h).1]
  · have hno : ∀ P : Branch Id → Prop, ¬ ∃ x, c.branches.Has x ∧ x.id = i ∧ P x :=
      fun P ⟨x, hx, he, _⟩ => hi (he ▸ hx.mem)
    rw [if_neg hi, if_neg fun h => hno _ (htree.mp h), if_neg fun h => hno _ (hstale.mp h),
      if_neg fun h => hno _ (himm.mp h)]

/-- After a move the tree has the blocks that are not pruned. -/
theorem Moves.mem_iff (i : Id) :
    i ∈ c'.branches.branches ↔ i ∈ c.branches.branches ∧ i ∉ pruned.all := by
  have hpart := hm.partition hc hs i
  have hall : i ∈ pruned.all ↔ i ∈ pruned.staleBlocks ∨ i ∈ pruned.immutableIds := Multiset.mem_add
  grind

end Cryptarchia

/-- What an event reports as pruned. -/
def Event.pruned : Event Id → Option (PrunedBlocks Id)
  | received _ _ _ out => some out.prunedBlocks
  | rejected _ _ => none
  | online pruned => some pruned

/-- In how many places a block is: the tree and what was pruned. -/
def places (evs : List (Event Id)) (c : Cryptarchia Id) (i : Id) : Nat :=
  (if i ∈ c.branches.branches then 1 else 0) +
    (evs.filterMap Event.pruned).countP (i ∈ ·.staleBlocks) +
    (evs.filterMap Event.pruned).countP (i ∈ ·.immutableIds)

namespace Cryptarchia

variable {c c' : Cryptarchia Id} {r : Branch Id} {pruned : PrunedBlocks Id} {parentOf : Id → Id}
  {start : Branch Id} {evs : List (Event Id)} {ev : Event Id}

theorem Moves.places_eq (hm : c.Moves r c' pruned) (hc : c.Ok) (hs : c.branches.Strict)
    (hev : ev.pruned = some pruned) (i : Id) : places (evs ++ [ev]) c' i = places evs c i := by
  have hmove := hm.partition hc hs i
  have hlast : [ev].filterMap Event.pruned = [pruned] := by
    rw [List.filterMap_cons, hev, List.filterMap_nil]
  unfold Engine.places
  rw [List.filterMap_append, hlast, List.countP_append, List.countP_append, List.countP_singleton,
    List.countP_singleton]
  simp only [decide_eq_true_eq]
  omega

theorem Adopts.places_eq {ord : TipOrder Id} {p b : Branch Id} (ha : c.Adopts ord p b c')
    (hf : c.branches.Fresh b.id) (i : Id) :
    places evs c' i = places evs c i + if i = b.id then 1 else 0 := by
  have hmem : (if i ∈ c'.branches.branches then 1 else 0) =
      (if i ∈ c.branches.branches then 1 else 0) + if i = b.id then 1 else 0 := by
    rw [ha.adds.branches]
    simp only [Finmap.mem_insert]
    by_cases hi : i = b.id
    · rw [if_pos (.inl hi), if_neg (hi ▸ hf.1), if_pos hi]
    · simp only [hi, false_or, if_false, Nat.add_zero]
  unfold Engine.places
  omega

/-- Every block seen is in one place, and no other in any. -/
structure Lossless (parentOf : Id → Id) (start : Branch Id) (evs : List (Event Id))
    (c : Cryptarchia Id) : Prop where
  history : History parentOf start evs c
  strict : c.branches.Strict
  places : ∀ i, places evs c i = if i ∈ seen start evs then 1 else 0

theorem Lossless.step (h : Lossless parentOf start evs c) (hs : StrictStep c ev c')
    (hh : Hashed parentOf start (evs ++ [ev])) : Lossless parentOf start (evs ++ [ev]) c' := by
  have hist := h.history.step hs.1 hh
  have hc := h.history.ok
  obtain ⟨ord, b, p, mid, r, out, rfl, hf, hr⟩ | ⟨i, e, rfl, rfl⟩ | ⟨r, pruned, rfl, hm⟩ :=
    hs.1.spec hc
  · have hmid := hr.adopts.ok hc hf
    have hlt : p.slot < b.slot :=
      hs.2 _ _ _ _ rfl p (hr.adopts.adds.parent_id ▸ hr.adopts.adds.parent)
    have hstrict := h.strict.adds hc.tree hr.adopts.adds hf hlt
    refine ⟨hist, hstrict.prunes hr.moves.prunes, fun i => ?_⟩
    have hnew := h.history.not_seen hf hr.adopts.adds.parent
      (hh.last.1.symm.trans hr.adopts.adds.parent_id)
    rw [hr.moves.places_eq hmid hstrict rfl, hr.adopts.places_eq hf, h.places, seen_append]
    grind [accepted, Event.accepted]
  · refine ⟨hist, h.strict, fun j => ?_⟩
    rw [seen_append]
    simpa [Engine.places, accepted, Event.accepted, Event.pruned, List.filterMap_cons] using
      h.places j
  · refine ⟨hist, Branches.Strict.prunes (s := c.branches) h.strict hm.prunes, fun j => ?_⟩
    rw [hm.places_eq hc.asOnline h.strict rfl, seen_append]
    simpa [Engine.places, accepted, Event.accepted, List.filterMap_cons] using h.places j

end Cryptarchia

open Cryptarchia

variable {id parent : Id} {eras : EraSchedule Config} {state : State} {slot length : Nat}
  {us : List Nat} {parentOf : Id → Id} {evs : List (Event Id)} {c c' : Cryptarchia Id}

theorem lossless_fromLib (hh : Hashed parentOf ⟨id, parent, slot, length, us⟩ evs) :
    Lossless parentOf ⟨id, parent, slot, length, us⟩ []
      (fromLib id parent eras state slot length us) where
  history := history_fromLib hh
  strict b p hp := by
    have hc := fromLib_ok id parent eras state slot length us
    obtain ⟨hb, hpHas, -, hlen, -⟩ := hc.tree.par_spec hp
    rw [fromLib_has.mp hb, fromLib_has.mp hpHas] at hlen
    omega
  places i := by grind [places, fromLib_mem, seen, accepted]

theorem lossless_run (hrun : Run StrictStep (fromLib id parent eras state slot length us) evs c)
    (hh : Hashed parentOf ⟨id, parent, slot, length, us⟩ evs) :
    Lossless parentOf ⟨id, parent, slot, length, us⟩ evs c := by
  refine hrun.history (I := fun evs c => Hashed parentOf ⟨id, parent, slot, length, us⟩ evs →
    Lossless parentOf ⟨id, parent, slot, length, us⟩ evs c) (fun _ => lossless_fromLib hh) ?_ hh
  intro evs c ev c' ih hs hh
  exact (ih hh.of_append).step hs hh

/-- **Pruning is exact and lossless** along every run: each accepted block is in one place, and a
move of the LIB prunes the blocks that are not above it. -/
theorem lossless_of_run (hrun : Run StrictStep (fromLib id parent eras state slot length us) evs c)
    (hh : Hashed parentOf ⟨id, parent, slot, length, us⟩ evs) :
    (∀ i ∈ seen ⟨id, parent, slot, length, us⟩ evs, places evs c i = 1) ∧
    (∀ ord i p s us' c' out, c.branches.Fresh i → c.Later p s →
      c.receiveBlock ord i p s us' = .ok (c', out) → ∃ mid r, c.adopt ord i p s us' = .ok mid ∧
        mid.branches.Has r ∧ r.id = c'.lib ∧ Exact mid.branches r out.prunedBlocks) ∧
    (∀ ord c' pruned, c.online ord = .ok (c', pruned) →
      ∃ r, c.branches.Has r ∧ r.id = c'.lib ∧ Exact c.branches r pruned) := by
  have h := lossless_run hrun hh
  have hc := h.history.ok
  refine ⟨fun i hi => by rw [h.places, if_pos hi], ?_, ?_⟩
  · intro ord i p s us' c' out hf hlater hrec
    obtain ⟨b, q, mid, r, hr, rfl, rfl, rfl, hmid⟩ := receiveBlock_ok hc hf hrec
    have hlt := hlater q (hr.adopts.adds.parent_id ▸ hr.adopts.adds.parent)
    have hstrict := h.strict.adds hc.tree hr.adopts.adds hf hlt
    exact ⟨mid, r, hmid, hr.moves.has, hr.moves.prunes.lib.symm,
      hr.moves.exact (hr.adopts.ok hc hf) hstrict⟩
  · intro ord c' pruned ho
    obtain ⟨r, c₂, pruned', ho', hm⟩ := online_spec hc ord
    rw [ho] at ho'
    cases ho'
    exact ⟨r, hm.has, hm.prunes.lib.symm, hm.exact hc.asOnline h.strict⟩

/-- A stale block, an immutable block and a block of the tree. -/
theorem lossless_of_forked_run : ∃ evs c, Run StrictStep (sample 0 .bootstrapping) evs c ∧
    c.lib = 2 ∧ places evs c 3 = 1 ∧ places evs c 1 = 1 ∧ places evs c 4 = 1 := by
  obtain ⟨evs, c, hrun, hc⟩ := exists_run_of_exec (execStep_strict .ascending)
    (s := sample 0 .bootstrapping)
    (l := [.block 1 0 1, .block 2 1 2, .block 3 0 3, .block 4 2 4, .online])
    (fun r => (r.2.lib, accepted r.1, decide (Hashed (fun i => [0, 0, 1, 0, 2].getD i 0)
      ⟨0, 0, 0, 0, []⟩ r.1))) (a := (2, [1, 2, 3, 4], true)) (by decide)
  have hacc : accepted evs = [1, 2, 3, 4] := congrArg (·.2.1) hc
  have h := (lossless_of_run hrun (of_decide_eq_true (congrArg (·.2.2) hc))).1
  unfold seen at h
  rw [hacc] at h
  exact ⟨evs, c, hrun, congrArg (·.1) hc, h 3 (by decide), h 1 (by decide), h 4 (by decide)⟩

end Logos.Engine
