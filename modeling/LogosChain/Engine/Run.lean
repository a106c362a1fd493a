import LogosChain.Base.Run
import LogosChain.Engine.Prune

/-!
# Runs of the engine

A run starts with one block (`fromLib`). A received block has a fresh id: it is not in the tree, and
no block of the tree records it as its parent, as ids are hashes of headers. Each step may iterate
over the tips in an order of its own.
-/

namespace Logos.Engine

open Base

variable {Id : Type} [DecidableEq Id]

/-- A block that was received, with its outcome, or the switch. -/
inductive Event (Id : Type) where
  | received (id parent : Id) (slot : Nat) (out : ReceiveBlockOutcome Id)
  | rejected (id : Id) (e : Error Id)
  | online (pruned : PrunedBlocks Id)

namespace Cryptarchia

variable {c c' : Cryptarchia Id} {id parent i : Id} {slot length : Nat} {us : List Nat}
  {ord : TipOrder Id} {state : State} {b : Branch Id} {ev : Event Id} {evs : List (Event Id)}
  {α : Type}

/-! ## The two calls on a well-formed engine -/

/-- The report of a change from `old`: paths from the common ancestor. -/
structure Reports (c : Cryptarchia Id) (old : Branch Id) (reorged newly : List Id) : Prop where
  paths : ∃ l p₁ p₂, IsLca c.branches.par old c.localChain l ∧ Path c.branches.par l p₁ old ∧
    Path c.branches.par l p₂ c.localChain ∧ reorged = (p₁.map (·.id)).reverse ∧
    newly = p₂.map (·.id)

/-- The old and the new local chain have a common ancestor, so the report does not fail. -/
theorem canonicalChange_spec (hc : c.Ok) {old : Branch Id} (ho : c.branches.Has old) :
    ∃ reorged newly, c.canonicalChange old = .ok (reorged, newly) ∧ c.Reports old reorged newly := by
  unfold canonicalChange
  by_cases he : c.localChain.id = old.id
  · obtain rfl := Branches.eq_of_id ho hc.has he.symm
    exact ⟨[], [], if_pos he, ⟨_, [], [], .of_anc (.refl _), .nil, .nil, rfl, rfl⟩⟩
  · obtain ⟨l, hl, -, hlca⟩ := hc.tree.lca_spec ho hc.has
    obtain ⟨p₁, hp₁⟩ := Path.of_anc hlca.left
    obtain ⟨p₂, hp₂⟩ := Path.of_anc hlca.right
    refine ⟨_, _, ?_, ⟨l, p₁, p₂, hlca, hp₁, hp₂, rfl, rfl⟩⟩
    rw [if_neg he, expect_some hl]
    simp only [bind, Except.bind, hc.tree.walkBackToBlock_spec ho hp₁,
      hc.tree.walkBackToBlock_spec hc.has hp₂, List.reverse_reverse]
    rfl

/-- The block is added (`mid`), and the LIB moves to `r`. -/
structure Receives (c : Cryptarchia Id) (ord : TipOrder Id) (b : Branch Id)
    (c' : Cryptarchia Id) (out : ReceiveBlockOutcome Id) (p : Branch Id) (mid : Cryptarchia Id)
    (r : Branch Id) : Prop where
  adopts : c.Adopts ord p b mid
  reports : mid.Reports c.localChain out.reorgedBlocks out.newlyCanonicalBlocks
  moves : mid.Moves r c' out.prunedBlocks

/-- What `receiveBlock` does with a fresh id when it succeeds. -/
theorem receiveBlock_ok (hc : c.Ok) {out : ReceiveBlockOutcome Id} (hf : c.branches.Fresh id)
    (h : c.receiveBlock ord id parent slot us = .ok (c', out)) :
    ∃ b p mid r, c.Receives ord b c' out p mid r ∧ b.id = id ∧ b.parent = parent ∧
      b.slot = slot ∧ c.adopt ord id parent slot us = .ok mid := by
  obtain ⟨mid, hmid, hrest⟩ := bind_ok h
  obtain ⟨p, b, ha, rfl, rfl, rfl⟩ := adopt_ok hc hf hmid
  have hmidOk := ha.ok hc hf
  obtain ⟨reorged, newly, hchange, hrep⟩ := canonicalChange_spec hmidOk (ha.adds.has_old hf hc.has)
  obtain ⟨r, c₂, pruned, hupd, hmov⟩ := updateLib_spec hmidOk ord
  simp only [hchange, hupd, bind, Except.bind, pure, Except.pure] at hrest
  cases hrest
  exact ⟨b, p, mid, r, ⟨ha, hrep, hmov⟩, rfl, rfl, rfl, hmid⟩

/-- What `receiveBlock` fails with: an error, or the length of the chain is past the `u64`s. -/
theorem receiveBlock_error (hc : c.Ok) {f : Failure Id} (hf : c.branches.Fresh id)
    (h : c.receiveBlock ord id parent slot us = .error f) :
    (∃ e, f = .error e) ∨ f = .panic .heightOverflow := by
  unfold receiveBlock at h
  cases hmid : c.adopt ord id parent slot us with
  | error g => rw [hmid] at h; cases h; exact adopt_error hc hf hmid
  | ok mid =>
    rw [hmid] at h
    obtain ⟨p, b, ha, rfl, rfl, rfl⟩ := adopt_ok hc hf hmid
    have hmidOk := ha.ok hc hf
    obtain ⟨reorged, newly, hchange, -⟩ := canonicalChange_spec hmidOk (ha.adds.has_old hf hc.has)
    obtain ⟨r, c₂, pruned, hupd, -⟩ := updateLib_spec hmidOk ord
    simp only [hchange, hupd, bind, Except.bind, pure, Except.pure] at h
    cases h

/-- A move of the LIB keeps the invariant: the local chain is above the new LIB. -/
theorem Moves.ok {r : Branch Id} {pruned : PrunedBlocks Id} (hm : c.Moves r c' pruned)
    (hc : c.Ok) : c'.Ok where
  tree := hm.prunes.ok hc.tree hm.has
  has := by rw [hm.localChain]; exact hm.prunes.has_iff.mpr ⟨hc.has, hm.on⟩
  tip := by
    rw [hm.localChain]
    exact (hm.prunes.tips _).mpr ⟨c.localChain, hc.has, rfl, hc.tip, hm.on⟩

theorem Ok.asOnline (hc : c.Ok) : Ok { c with state := .online } := ⟨hc.tree, hc.has, hc.tip⟩

theorem online_spec (hc : c.Ok) (ord : TipOrder Id) :
    ∃ r c' pruned, c.online ord = .ok (c', pruned) ∧
      Moves { c with state := .online } r c' pruned :=
  updateLib_spec hc.asOnline ord

/-! ## Runs -/

/-- A step of the engine, with what it reports. -/
inductive Step : Cryptarchia Id → Event Id → Cryptarchia Id → Prop where
  | received {c c' : Cryptarchia Id} {ord : TipOrder Id} {id parent : Id} {slot : Nat}
      {us : List Nat} {out : ReceiveBlockOutcome Id} : c.branches.Fresh id →
      c.receiveBlock ord id parent slot us = .ok (c', out) →
      Step c (.received id parent slot out) c'
  | rejected {c : Cryptarchia Id} {ord : TipOrder Id} {id parent : Id} {slot : Nat}
      {us : List Nat} {e : Error Id} :
      c.receiveBlock ord id parent slot us = .error (.error e) → Step c (.rejected id e) c
  | online {c c' : Cryptarchia Id} {ord : TipOrder Id} {pruned : PrunedBlocks Id} :
      c.online ord = .ok (c', pruned) → Step c (.online pruned) c'

theorem fromLib_lookup {eras : EraSchedule Config} :
    (fromLib id parent eras state slot length us).branches.branches.lookup i = some b ↔
      i = id ∧ b = ⟨id, parent, slot, length, us⟩ := by
  rw [fromLib, Branches.fromLib, Map.lookup_insert_some]
  simp [eq_comm]

theorem fromLib_has {eras : EraSchedule Config} :
    (fromLib id parent eras state slot length us).branches.Has b ↔
      b = ⟨id, parent, slot, length, us⟩ := by grind [Branches.Has, fromLib_lookup]

theorem fromLib_mem {eras : EraSchedule Config} :
    i ∈ (fromLib id parent eras state slot length us).branches.branches ↔ i = id := by
  rw [Finmap.mem_iff]
  simp [fromLib_lookup]

theorem fromLib_ok (id parent : Id) (eras : EraSchedule Config) (state : State) (slot length : Nat)
    (us : List Nat) : (fromLib id parent eras state slot length us).Ok := by
  refine ⟨⟨fun i b hb => ?_, fromLib_mem.mpr rfl, fun b hb hne => ?_, fun b hb _ => ?_, fun i => ?_,
    fun b hb => ?_⟩, fromLib_has.mpr rfl, Finset.mem_singleton_self _⟩
  · obtain ⟨rfl, rfl⟩ := fromLib_lookup.mp hb
    rfl
  · rw [fromLib_has.mp hb] at hne
    exact absurd rfl hne
  · rw [fromLib_has.mp hb, fromLib_mem]
    exact em _
  · rw [fromLib_mem, show i ∈ (fromLib id parent eras state slot length us).branches.tips ↔ i = id from
      Finset.mem_singleton]
    refine ⟨fun h => ⟨h, ?_⟩, fun h => h.1⟩
    rintro c ⟨hc, -, hne⟩
    rw [fromLib_has.mp hc] at hne
    exact hne h.symm
  · exact ⟨b, hb, by rw [fromLib_has.mp hb]; exact Finset.mem_singleton_self _, .refl b⟩

theorem Step.spec (hs : Step c ev c') (hc : c.Ok) :
    (∃ ord b p mid r out, ev = .received b.id b.parent b.slot out ∧ c.branches.Fresh b.id ∧
      c.Receives ord b c' out p mid r) ∨
    (∃ i e, ev = .rejected i e ∧ c' = c) ∨
    (∃ r pruned, ev = .online pruned ∧ Moves { c with state := .online } r c' pruned) := by
  cases hs with
  | received hf h =>
    obtain ⟨b, p, mid, r, hr, rfl, rfl, rfl, -⟩ := receiveBlock_ok hc hf h
    exact .inl ⟨_, b, p, mid, r, _, rfl, hf, hr⟩
  | rejected h => exact .inr (.inl ⟨_, _, rfl, rfl⟩)
  | online h =>
    obtain ⟨r, c₂, pruned, h', hm⟩ := online_spec hc _
    rw [h] at h'
    cases h'
    exact .inr (.inr ⟨r, _, rfl, hm⟩)

theorem Step.ok (hs : Step c ev c') (hc : c.Ok) : c'.Ok := by
  obtain ⟨ord, b, p, mid, r, out, -, hf, hr⟩ | ⟨i, e, -, rfl⟩ | ⟨r, pruned, -, hm⟩ := hs.spec hc
  · exact hr.moves.ok (hr.adopts.ok hc hf)
  · exact hc
  · exact hm.ok hc.asOnline

theorem Step.eras (hs : Step c ev c') (hc : c.Ok) : c'.eraSchedule = c.eraSchedule := by
  obtain ⟨ord, b, p, mid, r, out, -, hf, hr⟩ | ⟨i, e, -, rfl⟩ | ⟨r, pruned, -, hm⟩ := hs.spec hc
  · exact hr.moves.eras.trans hr.adopts.eras
  · rfl
  · exact hm.eras

/-- A block of the slot is later than its parent. -/
def Later (c : Cryptarchia Id) (parent : Id) (slot : Nat) : Prop :=
  ∀ p ∈ c.branches.branches.lookup parent, p.slot < slot

instance (c : Cryptarchia Id) (parent : Id) (slot : Nat) : Decidable (c.Later parent slot) :=
  inferInstanceAs (Decidable (∀ p ∈ c.branches.branches.lookup parent, p.slot < slot))

/-- A step with a block that is later than its parent. -/
def StrictStep (c : Cryptarchia Id) (ev : Event Id) (c' : Cryptarchia Id) : Prop :=
  Step c ev c' ∧ ∀ id parent slot out, ev = .received id parent slot out → c.Later parent slot

/-- A block to receive, or the switch to the online state. -/
inductive Input (Id : Type) where
  | block (id parent : Id) (slot : Nat)
  | online

/-- A step on a given input, if the id is fresh and the block later. -/
def execStep (ord : TipOrder Id) (c : Cryptarchia Id) : Input Id → Option (Event Id × Cryptarchia Id)
  | .block id parent slot =>
    match c.receiveBlock ord id parent slot [] with
    | .ok (c', out) =>
      if c.branches.Fresh id ∧ c.Later parent slot then some (.received id parent slot out, c')
      else none
    | .error (.error e) => some (.rejected id e, c)
    | .error (.panic _) => none
  | .online =>
    match c.online ord with
    | .ok (c', pruned) => some (.online pruned, c')
    | .error _ => none

theorem execStep_strict (ord : TipOrder Id) (c : Cryptarchia Id) (i : Input Id) (ev : Event Id)
    (c' : Cryptarchia Id) (h : execStep ord c i = some (ev, c')) : StrictStep c ev c' := by
  cases i with
  | block id parent slot =>
    simp only [execStep] at h
    split at h
    · rename_i hr
      split at h
      · rename_i hf
        cases h
        refine ⟨.received hf.1 hr, fun _ _ _ _ he => ?_⟩
        cases he
        exact hf.2
      · cases h
    · rename_i hr
      cases h
      exact ⟨.rejected hr, fun _ _ _ _ he => by cases he⟩
    · cases h
  | online =>
    simp only [execStep] at h
    split at h
    · rename_i hr
      cases h
      exact ⟨.online hr, fun _ _ _ _ he => by cases he⟩
    · cases h

theorem run_of_strict (h : Run StrictStep c evs c') : Run Step c evs c' :=
  h.mono fun _ _ _ hs => hs.1

theorem exists_run (ord : TipOrder Id) (c : Cryptarchia Id) (is : List (Input Id))
    (f : List (Event Id) × Cryptarchia Id → α) {a : α}
    (h : (exec (execStep ord) c is).map f = some a) :
    ∃ evs c', Run Step c evs c' ∧ f (evs, c') = a := by
  obtain ⟨evs, c', hr, ha⟩ := exists_run_of_exec (execStep_strict ord) f h
  exact ⟨evs, c', run_of_strict hr, ha⟩

/-- An execution and a block received after it. -/
theorem exists_received (ord : TipOrder Id) (c : Cryptarchia Id) (is : List (Input Id))
    (id parent : Id) (slot : Nat) (f : List (Event Id) × Cryptarchia Id × Cryptarchia Id → α)
    {a : α}
    (h : ((exec (execStep ord) c is).bind fun r =>
      if r.2.branches.Fresh id then
        (r.2.receiveBlock ord id parent slot []).toOption.map fun q => f (r.1, r.2, q.1)
      else none) = some a) :
    ∃ evs c₁ c₂ out, Run Step c evs c₁ ∧ c₁.branches.Fresh id ∧
      c₁.receiveBlock ord id parent slot [] = .ok (c₂, out) ∧ f (evs, c₁, c₂) = a := by
  obtain ⟨⟨evs, c₁⟩, hr, h⟩ := Option.bind_eq_some_iff.mp h
  split at h
  · rename_i hf
    obtain ⟨⟨c₂, out⟩, hq, ha⟩ := Option.map_eq_some_iff.mp h
    refine ⟨evs, c₁, c₂, out, run_of_strict (exec_run (execStep_strict ord) hr), hf, ?_, ha⟩
    cases hrec : c₁.receiveBlock ord id parent slot [] with
    | ok q => rw [hrec] at hq; cases hq; rfl
    | error e => rw [hrec] at hq; cases hq
  · cases h

/-- Small parameters with security parameter `k + 1`. -/
def sampleConfig (k : Nat) : Config := ⟨k + 1, 3, 10, 2, k.succ_pos, by decide⟩

/-- An engine at genesis with security parameter `k + 1`. -/
def sample (k : Nat) (state : State) : Cryptarchia Nat :=
  fromGenesis 0 (.single (sampleConfig k)) state

theorem securityParam_sample (k : Nat) :
    ∀ e ∈ (EraSchedule.single (sampleConfig k)).iter, e.parameters.securityParam = k + 1 := by
  simp [EraSchedule.iter, EraSchedule.single, EraSchedule.erasAfterGenesis, StoredEntry.view,
    sampleConfig]

theorem run_ok (h : Run Step c evs c') (hc : c.Ok) : c'.Ok :=
  h.invariant hc fun _ _ _ hc hs => hs.ok hc

theorem run_eras (h : Run Step c evs c') (hc : c.Ok) : c'.eraSchedule = c.eraSchedule :=
  (h.invariant (I := fun d => d.Ok ∧ d.eraSchedule = c.eraSchedule) ⟨hc, rfl⟩
    fun _ _ _ hd hs => ⟨hs.ok hd.1, (hs.eras hd.1).trans hd.2⟩).2

end Cryptarchia

end Logos.Engine
