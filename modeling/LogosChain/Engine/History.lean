import LogosChain.Engine.Run

/-!
# The history of a run

The tree forgets blocks; the log of a run does not. An id is the hash of a header that holds the
parent's id, so it determines the parent (`Hashed`). In every run no id is accepted twice, a block
that left the tree never comes back, and the links have no cycle.
-/

namespace Logos.Engine

open Base List

variable {Id : Type} {parentOf : Id → Id} {start : Branch Id} {evs evs' : List (Event Id)}
  {ev : Event Id} {i : Id}

/-- The id of a received block. -/
def Event.accepted : Event Id → Option Id
  | received id _ _ _ => some id
  | _ => none

/-- The ids of the blocks received so far. -/
def accepted (evs : List (Event Id)) : List Id := evs.filterMap Event.accepted

/-- The start and the blocks received so far. -/
def seen (start : Branch Id) (evs : List (Event Id)) : List Id := start.id :: accepted evs

/-- The id of an accepted block determines its parent. -/
def Event.Hashed (parentOf : Id → Id) (start : Branch Id) : Event Id → Prop
  | received id parent _ _ => parent = parentOf id ∧ id ≠ start.parent
  | _ => True

/-- An id determines the parent, and no block is the parent of the start. -/
structure Hashed (parentOf : Id → Id) (start : Branch Id) (evs : List (Event Id)) : Prop where
  of_start : start.parent = parentOf start.id
  of_event : ∀ ev ∈ evs, ev.Hashed parentOf start

@[simp] theorem accepted_append :
    accepted (evs ++ evs') = accepted evs ++ accepted evs' := filterMap_append

@[simp] theorem seen_append : seen start (evs ++ evs') = seen start evs ++ accepted evs' := by
  simp [seen]

theorem Hashed.of_append (h : Hashed parentOf start (evs ++ evs')) : Hashed parentOf start evs :=
  ⟨h.of_start, fun ev hev => h.of_event ev (mem_append_left _ hev)⟩

theorem Hashed.last (h : Hashed parentOf start (evs ++ [ev])) : ev.Hashed parentOf start :=
  h.of_event ev (mem_append_right _ (mem_singleton_self _))

theorem Hashed.ne_parent (h : Hashed parentOf start evs) (hi : i ∈ accepted evs) :
    i ≠ start.parent := by
  obtain ⟨ev, hev, he⟩ := mem_filterMap.mp hi
  cases ev with
  | received id p s o => cases he; exact (h.of_event _ hev).2
  | rejected id e => cases he
  | online pruned => cases he

variable [DecidableEq Id]

instance : Decidable (ev.Hashed parentOf start) :=
  match ev with
  | .received id parent _ _ => inferInstanceAs (Decidable (parent = parentOf id ∧ id ≠ start.parent))
  | .rejected _ _ => isTrue trivial
  | .online _ => isTrue trivial

instance : Decidable (Hashed parentOf start evs) :=
  decidable_of_iff (start.parent = parentOf start.id ∧ ∀ ev ∈ evs, ev.Hashed parentOf start)
    ⟨fun h => ⟨h.1, h.2⟩, fun h => ⟨h.of_start, h.of_event⟩⟩

/-- The parents of the accepted blocks. -/
def link (parentOf : Id → Id) (evs : List (Event Id)) (i : Id) : Option Id :=
  if i ∈ accepted evs then some (parentOf i) else none

theorem link_some {p : Id} : link parentOf evs i = some p ↔ i ∈ accepted evs ∧ parentOf i = p := by
  unfold link
  split <;> simp_all

theorem link_append {p : Id} (h : link parentOf evs i = some p) :
    link parentOf (evs ++ evs') i = some p := by grind [accepted_append, link_some]

namespace Cryptarchia

variable {c c' : Cryptarchia Id}

/-- The tree against the history. -/
structure History (parentOf : Id → Id) (start : Branch Id) (evs : List (Event Id))
    (c : Cryptarchia Id) : Prop where
  ok : c.Ok
  nodup : (seen start evs).Nodup
  was_seen : ∀ b, c.branches.Has b → b.id ∈ seen start evs
  parent : ∀ b, c.branches.Has b → b.parent = parentOf b.id
  /-- The parent of an accepted block was in the tree. -/
  closed : ∀ i ∈ accepted evs, parentOf i ∈ seen start evs
  /-- What left the tree cannot come back. -/
  gone : ∀ i ∈ seen start evs, i ∉ c.branches.branches → parentOf i ∉ c.branches.branches
  /-- The history has no cycle. -/
  graded : ∃ rank, Graded (link parentOf evs) rank

namespace History

variable (h : History parentOf start evs c) {p b : Branch Id}
include h

theorem not_seen (hf : c.branches.Fresh b.id) (hp : c.branches.Has p)
    (hpid : parentOf b.id = p.id) : b.id ∉ seen start evs := by
  intro hb
  exact h.gone b.id hb hf.1 (hpid ▸ hp.mem)

/-- A block that is not in the tree, whose parent is, has a fresh id. -/
theorem fresh (hh : Hashed parentOf start evs) {i : Id} (hi : i ∉ c.branches.branches)
    (hp : parentOf i ∈ c.branches.branches) (hne : i ≠ start.parent) : c.branches.Fresh i := by
  refine ⟨hi, fun j b hb he => ?_⟩
  have hHas := h.ok.tree.has_of_lookup hb
  have hpar : parentOf b.id = i := (h.parent b hHas).symm.trans he
  rcases mem_cons.mp (h.was_seen b hHas) with hstart | hacc
  · rw [hstart, ← hh.of_start] at hpar
    exact hne hpar.symm
  · exact h.gone i (hpar ▸ h.closed b.id hacc) hi hp

theorem adopts {ord : TipOrder Id} (ha : c.Adopts ord p b c') (hf : c.branches.Fresh b.id)
    (hev : ev.accepted = some b.id) (hpar : b.parent = parentOf b.id)
    (hh : Hashed parentOf start (evs ++ [ev])) : History parentOf start (evs ++ [ev]) c' := by
  have hacc : accepted [ev] = [b.id] := by simp [accepted, hev]
  have hpid : parentOf b.id = p.id := hpar.symm.trans ha.adds.parent_id
  have hnew := h.not_seen hf ha.adds.parent hpid
  have hmem : ∀ i, i ∈ c'.branches.branches ↔ i = b.id ∨ i ∈ c.branches.branches := by
    intro i
    rw [ha.adds.branches, Finmap.mem_insert]
  have hseen : ∀ i, i ∈ seen start (evs ++ [ev]) ↔ i ∈ seen start evs ∨ i = b.id := by
    grind [seen_append]
  refine ⟨ha.ok h.ok hf, ?_, fun x hx => ?_, fun x hx => ?_, fun i hi => ?_, fun i hi hni => ?_, ?_⟩
  · grind [seen_append, nodup]
  · rcases ha.adds.has_iff.mp hx with rfl | ⟨-, hx⟩
    · exact (hseen _).mpr (.inr rfl)
    · exact (hseen _).mpr (.inl (h.was_seen x hx))
  · rcases ha.adds.has_iff.mp hx with rfl | ⟨-, hx⟩
    · exact hpar
    · exact h.parent x hx
  · rw [accepted_append, hacc, mem_append, mem_singleton] at hi
    refine (hseen _).mpr (.inl ?_)
    rcases hi with hi | rfl
    · exact h.closed i hi
    · exact hpid ▸ h.was_seen p ha.adds.parent
  · rw [hmem, not_or] at hni ⊢
    have hi : i ∈ seen start evs := ((hseen i).mp hi).resolve_right hni.1
    refine ⟨fun he => ?_, h.gone i hi hni.2⟩
    -- the new block is not the parent of a block that was seen before it
    rcases mem_cons.mp hi with rfl | hacci
    · refine hh.ne_parent (i := b.id) ?_ (he.symm.trans hh.of_start.symm)
      grind [accepted_append]
    · exact hnew (he ▸ h.closed i hacci)
  · obtain ⟨rank, hrank⟩ := h.graded
    refine ⟨fun i => if i = b.id then rank p.id + 1 else rank i, fun i q hi => ?_⟩
    obtain ⟨hacci, rfl⟩ := link_some.mp hi
    rw [accepted_append, hacc, mem_append, mem_singleton] at hacci
    simp only
    rcases hacci with hi | rfl
    · have hib : i ≠ b.id := fun he => hnew (he ▸ mem_cons_of_mem _ hi)
      have hpb : parentOf i ≠ b.id := fun he => hnew (he ▸ h.closed i hi)
      rw [if_neg hib, if_neg hpb]
      exact hrank i _ (link_some.mpr ⟨hi, rfl⟩)
    · rw [if_pos rfl, hpid, if_neg (Branches.Adds.ne_of_has hf ha.adds.parent)]

/-- A move of the LIB: the parent of a block that leaves the tree leaves it, too. -/
theorem moves {r : Branch Id} {pruned : PrunedBlocks Id}
    (hm : c.Moves r c' pruned) : History parentOf start evs c' := by
  have hs := h.ok.tree
  refine ⟨hm.ok h.ok, h.nodup, fun b hb => h.was_seen b (hm.prunes.has_iff.mp hb).1,
    fun b hb => h.parent b (hm.prunes.has_iff.mp hb).1, h.closed, fun i hi hni hmem => ?_,
    h.graded⟩
  obtain ⟨p, hp, hpid, hrp⟩ := (hm.prunes.mem_iff hs).mp hmem
  by_cases hin : i ∈ c.branches.branches
  · obtain ⟨b, hb, rfl⟩ := hs.exists_has hin
    have hbp : b.parent = p.id := (h.parent b hb).trans hpid.symm
    refine hni ((hm.prunes.mem_iff hs).mpr ⟨b, hb, rfl, ?_⟩)
    by_cases hl : b.id = c.branches.lib
    · grind [Branches.Ok.root, Branches.Has.mem]
    · obtain ⟨q, hq, hqHas, hqid, -⟩ := hs.exists_par hb hl
      exact hrp.step (Branches.eq_of_id hqHas hp (hqid.trans hbp) ▸ hq)
  · exact h.gone i hi hin (hpid ▸ hp.mem)

theorem step (hs : Step c ev c')
    (hh : Hashed parentOf start (evs ++ [ev])) : History parentOf start (evs ++ [ev]) c' := by
  have hsame : ev.accepted = none → History parentOf start (evs ++ [ev]) c := by
    intro hev
    have hacc : accepted [ev] = [] := by simp [accepted, hev]
    have hlink : link parentOf (evs ++ [ev]) = link parentOf evs := by grind [link, accepted_append]
    refine ⟨h.ok, ?_, ?_, h.parent, ?_, ?_, hlink ▸ h.graded⟩ <;>
      simp only [seen_append, accepted_append, hacc, append_nil]
    exacts [h.nodup, h.was_seen, h.closed, h.gone]
  obtain ⟨ord, b, p, mid, r, out, rfl, hf, hr⟩ | ⟨i, e, rfl, rfl⟩ | ⟨r, pruned, rfl, hm⟩ :=
    hs.spec h.ok
  · exact (h.adopts hr.adopts hf rfl hh.last.1 hh).moves hr.moves
  · exact hsame rfl
  · have hnow := hsame rfl
    exact moves ⟨hnow.ok.asOnline, hnow.nodup, hnow.was_seen, hnow.parent, hnow.closed, hnow.gone,
      hnow.graded⟩ hm

theorem link_of_par (hh : Hashed parentOf start evs)
    (hp : c.branches.par b = some p) : link parentOf evs b.id = some p.id := by
  obtain ⟨hb, hpHas, hpid, hlen, -⟩ := h.ok.tree.par_spec hp
  refine link_some.mpr ⟨?_, (h.parent b hb).symm.trans hpid.symm⟩
  rcases mem_cons.mp (h.was_seen b hb) with he | hacc
  · -- the parent that the start records is not in the tree, unless it is the start
    have hps : p.id = start.parent := by rw [hh.of_start, ← he, ← h.parent b hb, hpid]
    rcases mem_cons.mp (h.was_seen p hpHas) with hp' | hp'
    · grind [Branches.eq_of_id]
    · exact absurd hps (hh.ne_parent hp')
  · exact hacc

/-- An ancestor in the tree is an ancestor in the history. -/
theorem anc_link (hh : Hashed parentOf start evs) {a : Branch Id}
    (hab : Anc c.branches.par a b) : Anc (link parentOf evs) a.id b.id := by
  induction hab with
  | refl => exact .refl _
  | tail _ hl ih => exact ih.step (h.link_of_par hh hl)

end History

end Cryptarchia

section Runs

variable {id parent : Id} {eras : EraSchedule Config} {state : State} {slot length : Nat}
  {us : List Nat} {c c' : Cryptarchia Id}

open Cryptarchia

theorem history_fromLib (hh : Hashed parentOf ⟨id, parent, slot, length, us⟩ evs) :
    History parentOf ⟨id, parent, slot, length, us⟩ [] (fromLib id parent eras state slot length us)
    := by
  refine ⟨fromLib_ok .., nodup_singleton _, fun b hb => ?_, fun b hb => ?_, fun i hi => ?_,
    fun i hi hni => absurd ?_ hni, 0, fun i p hi => ?_⟩
  · rw [fromLib_has.mp hb]
    exact mem_singleton_self _
  · rw [fromLib_has.mp hb]
    exact hh.of_start
  · cases hi
  · rw [mem_singleton.mp hi]
    exact (fromLib_ok id parent eras state slot length us).tree.lib
  · cases (link_some.mp hi).1

/-- The tree agrees with the history in every state of a run. -/
theorem history_of_run (hrun : Run Step (fromLib id parent eras state slot length us) evs c)
    (hh : Hashed parentOf ⟨id, parent, slot, length, us⟩ evs) :
    History parentOf ⟨id, parent, slot, length, us⟩ evs c := by
  refine hrun.history (I := fun evs c => Hashed parentOf ⟨id, parent, slot, length, us⟩ evs →
    History parentOf ⟨id, parent, slot, length, us⟩ evs c) (fun _ => history_fromLib hh) ?_ hh
  intro evs c ev c' ih hs hh
  exact (ih hh.of_append).step hs hh

end Runs

end Logos.Engine
