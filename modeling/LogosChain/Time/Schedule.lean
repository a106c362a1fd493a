import LogosChain.Base.Grid
import LogosChain.Time.Era

/-!
# Epochs, slots and time over a schedule (`time/src/era.rs`)

The epochs of a schedule are laid out in slots and its slots in time, as piecewise uniform grids
over the eras. So the epoch of a slot and the first slot of an epoch are inverse, the slot at a time
and the time of a slot are, and the era of a slot is the era of its epoch.
-/

namespace Logos.EraSchedule

open Base List Option

variable {P Q : Type} {S : EraSchedule P}

/-! ## The grids of a schedule -/

/-- The epochs, laid out in slots. -/
def epochGrid [EpochLength P] : Grid (EraEntryView P) where
  number e := e.firstEpoch
  position e := e.firstSlot
  length e := EpochLength.epochLength e.parameters

/-- The slots, laid out in time. -/
def slotGrid [SlotDuration P] : Grid (EraEntryView P) where
  number e := e.firstSlot
  position e := e.startTime
  length e := SlotDuration.slotDuration e.parameters

/-- Every era starts where the epochs of the era before it end. -/
def Resolved [EpochLength P] (S : EraSchedule P) : Prop := epochGrid.Laid S.iter

/-- Every era starts when the slots of the era before it end. -/
def ResolvedInTime [SlotDuration P] (S : EraSchedule P) : Prop := slotGrid.Laid S.iter

theorem lastStarted_atSlot (slot : Nat) :
    S.lastStarted (fun era => era.firstSlot ≤ slot) = some (S.atSlot slot) :=
  (some_get _).symm

theorem lastStarted_atEpoch (epoch : Nat) :
    S.lastStarted (fun era => era.firstEpoch ≤ epoch) = some (S.atEpoch epoch) :=
  (some_get _).symm

/-! ## Other parameters -/

theorem iter_map (f : P → Q) : (S.map f).iter = S.iter.map (EraEntryView.map f) := by
  have htail : (S.map f).erasAfterGenesis = S.erasAfterGenesis.map (EraEntryView.map f) := by
    apply ext_getElem
    · simp [erasAfterGenesis, map]
    · intro i _ _
      simp [erasAfterGenesis, map, StoredEntry.view, EraEntryView.map]
  rw [iter, htail]
  rfl

theorem atSlot_map (f : P → Q) (slot : Nat) : (S.map f).atSlot slot = (S.atSlot slot).map f := by
  have h : (S.map f).lastStarted (fun era => era.firstSlot ≤ slot) =
      (S.lastStarted fun era => era.firstSlot ≤ slot).map (EraEntryView.map f) := by
    rw [lastStarted, iter_map, takeWhile_map, List.getLast?_map]
    rfl
  grind [lastStarted_atSlot]

/-! ## Epochs and slots -/

section

variable [EpochLength P]

theorem positionOf_epochGrid (epoch : Nat) :
    epochGrid.positionOf S.iter epoch = some (S.startingSlotForEpoch epoch : Int) := by
  have h := S.lastStarted_atEpoch epoch
  rw [Grid.positionOf]
  change lastWhile _ _ = _ at h
  rw [show lastWhile (fun a => decide (epochGrid.number a ≤ epoch)) S.iter = _ from h]
  simp [Grid.point, epochGrid, startingSlotForEpoch]

theorem lastWhile_epochGrid (slot : Nat) :
    lastWhile (fun a => epochGrid.position a ≤ (slot : Int)) S.iter = some (S.atSlot slot) := by
  have h := S.lastStarted_atSlot slot
  simpa [lastStarted, lastWhile, epochGrid] using h

theorem numberAt_epochGrid (slot : Nat) :
    epochGrid.numberAt S.iter (slot : Int) = some (S.epochForSlot slot) := by
  rw [Grid.numberAt, lastWhile_epochGrid]
  simp [epochGrid, epochForSlot]

omit [EpochLength P] in
theorem atEpoch_zero : S.atEpoch 0 = S.genesis.view 0 0 := by
  obtain ⟨pre, post, hsplit, hstarted, -⟩ := lastWhile_split (S.lastStarted_atEpoch 0)
  have hmem : S.atEpoch 0 ∈ S.iter := by simp [hsplit]
  rcases mem_cons.mp hmem with h | h
  · exact h
  · obtain ⟨i, hi, heq⟩ := mem_mapIdx.mp h
    have hpos := S.positive _ (getElem_mem hi)
    rw [← heq] at hstarted
    have hzero : (S.afterGenesis[i]).1 ≤ 0 := of_decide_eq_true hstarted
    omega

theorem startingSlotForEpoch_zero : S.startingSlotForEpoch 0 = 0 := by
  rw [startingSlotForEpoch, atEpoch_zero]
  simp [StoredEntry.view, S.genesis_first_slot]

namespace Resolved

variable (h : S.Resolved)
include h

theorem epochForSlot_eq_iff {slot epoch : Nat} :
    S.epochForSlot slot = epoch ↔
      S.startingSlotForEpoch epoch ≤ slot ∧ slot < S.startingSlotForEpoch (epoch + 1) := by
  have hiff := Grid.Laid.numberAt_eq_some_iff h (x := (slot : Int)) (n := epoch)
  rw [numberAt_epochGrid, positionOf_epochGrid, positionOf_epochGrid, some_inj] at hiff
  simpa using hiff

theorem startingSlotForEpoch_lt {e e' : Nat} (he : e < e') :
    S.startingSlotForEpoch e < S.startingSlotForEpoch e' := by
  have := Grid.Laid.positionOf_lt h he (positionOf_epochGrid e) (positionOf_epochGrid e')
  omega

theorem startingSlotForEpoch_mono {e e' : Nat} (he : e ≤ e') :
    S.startingSlotForEpoch e ≤ S.startingSlotForEpoch e' := by
  rcases Nat.eq_or_lt_of_le he with rfl | hlt
  · exact le_rfl
  · exact (h.startingSlotForEpoch_lt hlt).le

theorem epochForSlot_zero : S.epochForSlot 0 = 0 := by
  have hlt := h.startingSlotForEpoch_lt Nat.zero_lt_one
  grind [startingSlotForEpoch_zero, epochForSlot_eq_iff]

theorem epochForSlot_mono {a b : Nat} (hab : a ≤ b) : S.epochForSlot a ≤ S.epochForSlot b := by
  by_contra hlt
  have ha := h.epochForSlot_eq_iff.mp (rfl : S.epochForSlot a = _)
  have hb := h.epochForSlot_eq_iff.mp (rfl : S.epochForSlot b = _)
  have hle : S.startingSlotForEpoch (S.epochForSlot b + 1) ≤
      S.startingSlotForEpoch (S.epochForSlot a) :=
    h.startingSlotForEpoch_mono (not_le.mp hlt)
  omega

/-- The next epoch starts after the slots of an epoch. -/
theorem startingSlotForEpoch_succ (epoch : Nat) :
    S.startingSlotForEpoch (epoch + 1) = S.startingSlotForEpoch epoch +
      EpochLength.epochLength (S.atEpoch epoch).parameters := by
  have hpiece : lastWhile (fun a => decide (epochGrid.number a ≤ epoch)) S.iter =
      some (S.atEpoch epoch) := S.lastStarted_atEpoch epoch
  have hsucc := Grid.Laid.positionOf_succ h hpiece
  rw [positionOf_epochGrid] at hsucc
  have hpoint : epochGrid.point (S.atEpoch epoch) epoch = (S.startingSlotForEpoch epoch : Int) := by
    simp [Grid.point, epochGrid, startingSlotForEpoch]
  have := Option.some.inj hsucc
  rw [hpoint] at this
  change (_ : Int) = _ + ((EpochLength.epochLength (S.atEpoch epoch).parameters : Nat) : Int) at this
  omega

theorem atSlot_eq (slot : Nat) : S.atSlot slot = S.atEpoch (S.epochForSlot slot) := by
  have hpiece := Grid.Laid.piece_numberAt h (lastWhile_epochGrid slot)
  have hnumber : epochGrid.number (S.atSlot slot) +
      ((slot : Int) - epochGrid.position (S.atSlot slot)).toNat / epochGrid.length (S.atSlot slot) =
        S.epochForSlot slot := by
    simp [epochGrid, epochForSlot]
  rw [hnumber] at hpiece
  exact Option.some.inj (hpiece.symm.trans (S.lastStarted_atEpoch _))

/-- The era of a slot is that of the slots from its start on. -/
theorem atSlot_eq_of_firstSlot_le {a b : Nat} (hab : a ≤ b)
    (hfirst : (S.atSlot b).firstSlot ≤ a) : S.atSlot a = S.atSlot b := by
  obtain ⟨pre, post, hsplit, -, hnext⟩ := lastWhile_split (lastWhile_epochGrid (S := S) b)
  have hlaid : epochGrid.Laid (pre ++ S.atSlot b :: post) := hsplit ▸ h
  have hstarted : epochGrid.position (S.atSlot b) ≤ (a : Int) := by
    simpa [epochGrid] using hfirst
  have hlater : ∀ e ∈ post.head?, (a : Int) < epochGrid.position e := by
    intro e he
    have hb := hnext e he
    rw [decide_eq_false_iff_not, not_le] at hb
    omega
  have hera := hlaid.lastWhile_position hstarted hlater
  grind [lastWhile_epochGrid]

end Resolved

theorem strictStartingSlotForEpoch_eq_some {epoch slot : Nat} :
    S.strictStartingSlotForEpoch epoch = some slot ↔
      S.startingSlotForEpoch epoch = slot ∧ slot < 2 ^ 64 := by
  unfold strictStartingSlotForEpoch startingSlotForEpoch
  simp only [bind_eq_bind, bind_eq_some_iff, checkedMul_eq_some, checkedAdd_eq_some]
  grind

theorem strictEpochForSlot_eq_some {slot epoch : Nat} :
    S.strictEpochForSlot slot = some epoch ↔ S.epochForSlot slot = epoch ∧ epoch < 2 ^ 32 := by
  unfold strictEpochForSlot
  split <;> simp <;> omega

end

/-! ## Slots and time -/

section

variable [SlotDuration P]

theorem positionOf_slotGrid (slot : Nat) :
    slotGrid.positionOf S.iter slot = some (slotGrid.point (S.atSlot slot) slot) := by
  have hpiece : lastWhile (fun a => decide (slotGrid.number a ≤ slot)) S.iter =
      some (S.atSlot slot) := S.lastStarted_atSlot slot
  rw [Grid.positionOf, hpiece]
  rfl

variable [DateTimeRange] {slot : Nat} {time : Int}

theorem checkedTimeOf_eq (h : S.checkedTimeOf slot = some time) :
    slotGrid.positionOf S.iter slot = some time := by
  unfold checkedTimeOf checkedAddSpan span at h
  simp only [bind_eq_bind, bind_eq_some_iff, checkedMul_eq_some,
    ite_none_right_eq_some, Option.some.injEq] at h
  obtain ⟨_, ⟨_, ⟨rfl, -⟩, -, rfl⟩, -, rfl⟩ := h
  rw [positionOf_slotGrid]
  simp [Grid.point, slotGrid, Int.mul_comm]

omit [DateTimeRange] in
/-- The slot at a time is its number on the grid. -/
theorem slotAt_eq_some (hpos : ∀ e ∈ S.iter, 0 < slotGrid.length e) (hslot : slot < 2 ^ 64) :
    S.slotAt time = .ok (some slot) ↔ slotGrid.numberAt S.iter time = some slot := by
  unfold slotAt Grid.numberAt
  change _ ↔ Option.map _ (S.lastStarted fun era => era.startTime ≤ time) = _
  cases hera : S.lastStarted fun era => era.startTime ≤ time with
  | none => simp
  | some era =>
    have hmem : era ∈ S.iter := by
      obtain ⟨pre, post, hsplit, -, -⟩ := lastWhile_split (l := S.iter) hera
      simp [hsplit]
    have hlen : 0 < SlotDuration.slotDuration era.parameters := hpos era hmem
    simp only [map_some, Option.some.injEq]
    constructor
    · intro h
      obtain ⟨_, -, h1⟩ := bind_ok h
      obtain ⟨_, -, h2⟩ := bind_ok h1
      obtain ⟨_, h3, h4⟩ := bind_ok h2
      cases h4
      exact (checkedAdd_eq_some.mp (okOr_ok.mp h3)).1
    · intro h
      change era.firstSlot +
        (time - era.startTime).toNat / SlotDuration.slotDuration era.parameters = slot at h
      refine ok_bind (failIf_of_not (by omega)) (ok_bind (failIf_of_not (by omega)) (ok_bind ?_ rfl))
      · rw [okOr_ok, checkedAdd_eq_some]
        exact ⟨h, hslot⟩

omit [DateTimeRange] in
theorem slotAt_eq_none : S.slotAt time = .ok none ↔ time < S.genesis.startTime := by
  unfold slotAt
  constructor
  · intro h
    by_contra hlt
    obtain ⟨era, hera⟩ : ∃ era, S.lastStarted (fun era => era.startTime ≤ time) = some era :=
      exists_lastWhile (decide_eq_true (not_lt.mp hlt))
    rw [hera] at h
    obtain ⟨_, -, h1⟩ := bind_ok h
    obtain ⟨_, -, h2⟩ := bind_ok h1
    obtain ⟨_, -, h3⟩ := bind_ok h2
    cases h3
  · intro hlt
    have hnone : S.lastStarted (fun era => era.startTime ≤ time) = none := by
      simp [lastStarted, iter, StoredEntry.view, hlt]
    rw [hnone]

end

/-! ## What `new` resolves -/

section

variable [EpochLength P] [SlotDuration P] [DateTimeRange] {genesisTime : Int} {genesis : P}
  {afterGenesis : EraEntriesAfterGenesis P}

/-- An era starts where the era before it leads to. -/
def Follows (a b : EraEntryView P) : Prop := epochGrid.Leads a b ∧ slotGrid.Leads a b

theorem follows_of_nextEraStart {era : EraEntryView P} {number firstEpoch firstSlot : Nat}
    {startTime : Int} {parameters : P} (hlt : era.firstEpoch < firstEpoch)
    (h : nextEraStart era firstEpoch = some (firstSlot, startTime)) :
    Follows era ⟨number, firstEpoch, firstSlot, startTime, parameters⟩ := by
  unfold nextEraStart checkedAddSpan span at h
  simp only [Option.bind_eq_bind, Option.bind_eq_some_iff, checkedMul_eq_some, checkedAdd_eq_some,
    checkedSub_eq_some, Option.ite_none_right_eq_some, Option.some.injEq, Option.pure_def,
    Prod.mk.injEq] at h
  obtain ⟨epochs, hepochs, _, ⟨rfl, -⟩, _, ⟨rfl, -⟩, _, ⟨_, ⟨rfl, -⟩, -, rfl⟩, _, ⟨-, rfl⟩, rfl,
    rfl⟩ := h
  have hsub : firstEpoch - era.firstEpoch = epochs := by omega
  have hslots : 0 < epochs * EpochLength.epochLength era.parameters :=
    Nat.mul_pos (by omega) (EpochLength.epochLength_pos _)
  refine ⟨⟨hlt, ?_⟩, ⟨?_, ?_⟩⟩
  · simp [Grid.point, epochGrid, hsub]
  · simpa [slotGrid] using hslots
  · simp [Grid.point, slotGrid, Int.mul_comm]

/-- Every era that is resolved follows the one before it. -/
theorem follows_of_resolve {previousEra : EraEntryView P} {l : List (Nat × P)}
    {r : List (Nat × StoredEntry P)}
    (hsorted : (previousEra.firstEpoch :: l.map (·.1)).Pairwise (· < ·))
    (h : resolve previousEra l = .ok r) :
    (previousEra :: r.mapIdx fun i e => e.2.view (previousEra.era + (i + 1)) e.1).IsChain
      Follows := by
  induction l generalizing previousEra r with
  | nil => cases h; simp
  | cons e l ih =>
    obtain ⟨⟨firstSlot, startTime⟩, h1, h2⟩ := bind_ok h
    obtain ⟨entries, h3, h4⟩ := bind_ok h2
    cases h4
    have hlt : previousEra.firstEpoch < e.1 := by grind
    have hrest := ih (by simpa [StoredEntry.view] using hsorted.tail) h3
    rw [mapIdx_cons, isChain_cons_cons]
    refine ⟨follows_of_nextEraStart hlt (okOr_ok.mp h1), ?_⟩
    have hnumber : ∀ i, previousEra.era + 1 + (i + 1) = previousEra.era + (i + 1 + 1) := by omega
    simpa [StoredEntry.view, hnumber] using hrest

section

variable (h : new genesisTime genesis afterGenesis = .ok S)
include h

theorem new_ok :
    S.genesis = ⟨0, genesisTime, genesis⟩ ∧
      resolve (S.genesis.view 0 0) afterGenesis.entries = .ok S.afterGenesis := by grind [new]

theorem follows_of_new : S.iter.IsChain Follows := by
  obtain ⟨-, hres⟩ := new_ok h
  have hsorted : ((S.genesis.view 0 0).firstEpoch :: afterGenesis.entries.map (·.1)).Pairwise
      (· < ·) := by
    rw [pairwise_cons]
    refine ⟨?_, afterGenesis.sorted⟩
    intro e he
    obtain ⟨e', he', rfl⟩ := mem_map.mp he
    exact afterGenesis.positive e' he'
  grind [follows_of_resolve, iter, erasAfterGenesis, StoredEntry.view]

theorem resolved_of_new : S.Resolved :=
  ⟨(follows_of_new h).imp fun _ _ hf => hf.1, fun _ _ => EpochLength.epochLength_pos _⟩

end

theorem parameters_of_resolve {previousEra : EraEntryView P} {l : List (Nat × P)}
    {r : List (Nat × StoredEntry P)} (h : resolve previousEra l = .ok r) :
    r.map (·.2.parameters) = l.map (·.2) := by
  induction l generalizing previousEra r with
  | nil => cases h; rfl
  | cons e l ih =>
    obtain ⟨_, -, h1⟩ := bind_ok h
    obtain ⟨entries, h2, h3⟩ := bind_ok h1
    cases h3
    rw [map_cons, map_cons, ih h2]

theorem resolvedInTime_of_new (h : new genesisTime genesis afterGenesis = .ok S)
    (hgenesis : 0 < SlotDuration.slotDuration genesis)
    (hafter : ∀ e ∈ afterGenesis.entries, 0 < SlotDuration.slotDuration e.2) :
    S.ResolvedInTime := by
  refine ⟨(follows_of_new h).imp fun _ _ hf => hf.2, ?_⟩
  obtain ⟨hg, hres⟩ := new_ok h
  have hparams := parameters_of_resolve hres
  intro era hera
  rcases mem_cons.mp hera with rfl | hera
  · simpa [slotGrid, StoredEntry.view, hg] using hgenesis
  · obtain ⟨i, hi, rfl⟩ := mem_mapIdx.mp hera
    have hmem : (S.afterGenesis[i]).2.parameters ∈ afterGenesis.entries.map (·.2) := by grind
    obtain ⟨e, he, heq⟩ := mem_map.mp hmem
    have := hafter e he
    rw [heq] at this
    exact this

/-! ## Inverse directions -/

/-- The epoch of a slot is the one that the slot is in, and the era of a slot is that of its epoch,
wherever the calls return. -/
theorem epochForSlot_inverse (h : new genesisTime genesis afterGenesis = .ok S) :
    (∀ epoch epoch' first first', epoch < epoch' →
      S.strictStartingSlotForEpoch epoch = some first →
      S.strictStartingSlotForEpoch epoch' = some first' → first < first') ∧
    (∀ slot epoch first next, epoch < 2 ^ 32 → S.strictStartingSlotForEpoch epoch = some first →
      S.strictStartingSlotForEpoch (epoch + 1) = some next →
      (S.strictEpochForSlot slot = some epoch ↔ first ≤ slot ∧ slot < next)) ∧
    ∀ slot epoch, S.strictEpochForSlot slot = some epoch → S.atSlot slot = S.atEpoch epoch := by
  grind [resolved_of_new, strictStartingSlotForEpoch_eq_some, strictEpochForSlot_eq_some,
    Resolved.epochForSlot_eq_iff, Resolved.startingSlotForEpoch_lt, Resolved.atSlot_eq]

/-- The slot at a time is the one that the time is in, and there is none exactly before genesis. -/
theorem slotAt_inverse (h : new genesisTime genesis afterGenesis = .ok S)
    (hgenesis : 0 < SlotDuration.slotDuration genesis)
    (hafter : ∀ e ∈ afterGenesis.entries, 0 < SlotDuration.slotDuration e.2) :
    (∀ time slot start next, slot < 2 ^ 64 → S.checkedTimeOf slot = some start →
      S.checkedTimeOf (slot + 1) = some next →
      (S.slotAt time = .ok (some slot) ↔ start ≤ time ∧ time < next)) ∧
    ∀ time, S.slotAt time = .ok none ↔ time < genesisTime := by
  have hr := resolvedInTime_of_new h hgenesis hafter
  refine ⟨?_, ?_⟩
  · intro time slot start next hfit hstart hnext
    rw [slotAt_eq_some hr.length_pos hfit, Grid.Laid.numberAt_eq_some_iff hr,
      checkedTimeOf_eq hstart, checkedTimeOf_eq hnext]
    simp
  · intro time
    rw [slotAt_eq_none, (new_ok h).1]

end

/-- Epochs of 100 slots of 1 s, 50 of 2 s from epoch 3, 3 of 1.5 s from 5, 100 of 1 s from 6. -/
def fourEras [DateTimeRange] : Except ErasError (EraSchedule EraTiming) :=
  new 0 ⟨10 ^ 9, 100, Nat.succ_pos 99⟩
    ⟨[(3, ⟨2 * 10 ^ 9, 50, Nat.succ_pos 49⟩), (5, ⟨15 * 10 ^ 8, 3, Nat.succ_pos 2⟩),
      (6, ⟨10 ^ 9, 100, Nat.succ_pos 99⟩)], by decide, by decide, by decide, by decide⟩

theorem epochForSlot_inverse_fourEras :
    letI := DateTimeRange.utc
    ∃ S, fourEras = .ok S ∧
      ∀ slot, S.strictEpochForSlot slot = some 5 ↔ 400 ≤ slot ∧ slot < 403 := by
  let _ := DateTimeRange.utc
  obtain ⟨S, h, h5, h6⟩ := exists_ok (x := fourEras) (fun S =>
    S.strictStartingSlotForEpoch 5 = some 400 ∧ S.strictStartingSlotForEpoch 6 = some 403)
    (by decide +kernel)
  exact ⟨S, h, fun slot => (epochForSlot_inverse h).2.1 slot 5 400 403 (by decide) h5 h6⟩

theorem slotAt_inverse_fourEras :
    letI := DateTimeRange.utc
    ∃ S, fourEras = .ok S ∧ ∀ time,
      S.slotAt time = .ok (some 402) ↔ 503 * 10 ^ 9 ≤ time ∧ time < 5045 * 10 ^ 8 := by
  let _ := DateTimeRange.utc
  obtain ⟨S, h, h1, h2⟩ := exists_ok (x := fourEras) (fun S =>
    S.checkedTimeOf 402 = some (503 * 10 ^ 9) ∧ S.checkedTimeOf 403 = some (5045 * 10 ^ 8))
    (by decide +kernel)
  exact ⟨S, h, fun time => (slotAt_inverse h (by decide) (by decide)).1 time 402 _ _ (by decide) h1 h2⟩

end Logos.EraSchedule
