import LogosChain.Mantle.Channel
import Mathlib.Data.Nat.ModEq

/-!
# The next change of turn (`core/src/mantle/channel.rs`)

Two grids move the turn of a channel: the ends of the turns, and, once the channel has been silent
for the timeout, the turns that were lost, from the slot of the last message. `roundRobin` and
`nextRoundRobinBoundary` decide between the two separately.
-/

namespace Logos.Mantle

open Base

/-! ## The points of a grid -/

/-- The first point after a slot, on a grid from an anchor. -/
def nextPoint (anchor period slot : Nat) : Nat := anchor + ((slot - anchor) / period + 1) * period

section Grid

variable {anchor period s t : Nat} (hperiod : 0 < period)
include hperiod

theorem lt_nextPoint : s < nextPoint anchor period s := by
  have := Nat.lt_div_mul_add hperiod (a := s - anchor)
  rw [nextPoint, Nat.add_mul]
  omega

/-- No period ends before the next point. -/
theorem periods_eq_of_lt_nextPoint (hle : s ≤ t) (hlt : t < nextPoint anchor period s) :
    (t - anchor) / period = (s - anchor) / period := by
  have : 0 < ((s - anchor) / period + 1) * period := Nat.mul_pos (Nat.succ_pos _) hperiod
  unfold nextPoint at hlt
  exact Nat.le_antisymm (Nat.lt_add_one_iff.mp ((Nat.div_lt_iff_lt_mul hperiod).mpr (by omega)))
    (Nat.div_le_div_right (by omega))

theorem periods_nextPoint :
    (nextPoint anchor period s - anchor) / period = (s - anchor) / period + 1 := by
  rw [nextPoint, Nat.add_sub_cancel_left, Nat.mul_div_cancel _ hperiod]

end Grid

namespace ChannelState

/-- The first point after a slot; none without a period or on overflow. -/
def nextOnGrid (current anchor period : Nat) : Option Nat :=
  if period = 0 then none
  else do
    let periodsElapsed := (current - anchor) / period
    let periods ← checkedAdd 64 periodsElapsed 1
    let span ← checkedMul 64 periods period
    checkedAdd 64 anchor span

/-- The first slot after a slot at which the turn can change. -/
def nextRoundRobinBoundary (c : ChannelState) (slot : Nat) : Option Nat :=
  let byTimeout := nextOnGrid slot c.tipSlot c.postingTimeout
  let timedOut := decide (c.postingTimeout ≠ 0 ∧ c.postingTimeout ≤ slot - c.tipSlot)
  if timedOut then byTimeout
  else
    let byTimeframe := nextOnGrid slot c.tipSequencerStartingSlot c.postingTimeframe
    (byTimeframe.toList ++ byTimeout.toList).min?

/-- The channel has been silent for the timeout. -/
def TimedOut (c : ChannelState) (slot : Nat) : Prop :=
  c.postingTimeout ≠ 0 ∧ c.tipSlot + c.postingTimeout ≤ slot

instance (c : ChannelState) (slot : Nat) : Decidable (c.TimedOut slot) :=
  inferInstanceAs (Decidable (_ ∧ _))

/-- The next points of the two grids fit the word of a slot. -/
structure GridsFit (c : ChannelState) (slot : Nat) : Prop where
  timeout : c.postingTimeout ≠ 0 → nextPoint c.tipSlot c.postingTimeout slot < 2 ^ 64
  timeframe : c.postingTimeframe ≠ 0 →
    nextPoint c.tipSequencerStartingSlot c.postingTimeframe slot < 2 ^ 64

/-- The turn of the only key starts after the slot, when the timeout is reached. -/
structure SoleTurnAhead (c : ChannelState) (slot : Nat) : Prop where
  keys : c.accreditedKeys.keys.length = 1
  timeout : c.postingTimeout ≠ 0
  ahead : slot < c.tipSequencerStartingSlot
  start : c.tipSequencerStartingSlot = c.tipSlot + c.postingTimeout
  sequencer : c.postingTimeframe = 0 → c.tipSequencer = 0

variable {c : ChannelState} {s t b anchor period : Nat}

theorem not_soleTurnAhead (h : c.tipSequencerStartingSlot ≤ c.tipSlot) (slot : Nat) :
    ¬ c.SoleTurnAhead slot := by
  rintro ⟨-, hne, -, hstart, -⟩
  omega

/-! ## The two functions on the grids -/

/-- The turn on a grid. -/
def turnAt (c : ChannelState) (anchor period slot : Nat) : Nat × Nat :=
  (wrappingAdd 64 c.tipSequencer ((slot - anchor) / period) % c.accreditedKeys.keys.length,
    anchor + (slot - anchor) / period * period)

theorem roundRobin_eq (c : ChannelState) (t : Nat) :
    c.roundRobin t =
      if c.TimedOut t then c.turnAt c.tipSlot c.postingTimeout t
      else if c.postingTimeframe = 0 then (c.tipSequencer, c.tipSequencerStartingSlot)
      else c.turnAt c.tipSequencerStartingSlot c.postingTimeframe t := by
  have hiff : c.TimedOut t ↔ c.postingTimeout ≠ 0 ∧ c.postingTimeout ≤ t - c.tipSlot := by
    unfold TimedOut
    omega
  grind [roundRobin, turnAt, checkedDiv]

theorem nextOnGrid_eq (hfit : period ≠ 0 → nextPoint anchor period s < 2 ^ 64) :
    nextOnGrid s anchor period = if period = 0 then none else some (nextPoint anchor period s) := by
  unfold nextOnGrid nextPoint at *
  split
  · rfl
  · next hne =>
    have hfit := hfit hne
    have hle := Nat.le_mul_of_pos_right ((s - anchor) / period + 1) (Nat.pos_of_ne_zero hne)
    simp only [Option.bind_eq_bind]
    rw [checkedAdd_eq_some.mpr ⟨rfl, by omega⟩, Option.bind_some,
      checkedMul_eq_some.mpr ⟨rfl, by omega⟩, Option.bind_some, checkedAdd_eq_some.mpr ⟨rfl, hfit⟩]

theorem boundary_eq (hfit : c.GridsFit s) :
    c.nextRoundRobinBoundary s = if c.TimedOut s then some (nextPoint c.tipSlot c.postingTimeout s)
      else ((if c.postingTimeframe = 0 then []
          else [nextPoint c.tipSequencerStartingSlot c.postingTimeframe s]) ++
        if c.postingTimeout = 0 then [] else [c.tipSlot + c.postingTimeout]).min? := by
  unfold nextRoundRobinBoundary
  simp only [nextOnGrid_eq hfit.timeout, nextOnGrid_eq hfit.timeframe, decide_eq_true_eq]
  have hiff : (c.postingTimeout ≠ 0 ∧ c.postingTimeout ≤ s - c.tipSlot) ↔ c.TimedOut s := by
    unfold TimedOut
    omega
  by_cases h : c.TimedOut s
  · rw [if_pos (hiff.mpr h), if_pos h, if_neg h.1]
  · have hfirst : c.postingTimeout ≠ 0 →
        nextPoint c.tipSlot c.postingTimeout s = c.tipSlot + c.postingTimeout := fun hne => by
      rw [nextPoint, Nat.div_eq_of_lt (Nat.lt_of_not_le fun hle => h (hiff.mp ⟨hne, hle⟩)),
        Nat.zero_add, Nat.one_mul]
    grind

/-- A turn stays up to the next point of its grid. -/
theorem turnAt_eq_of_lt (hne : period ≠ 0) (hle : s ≤ t)
    (hlt : t < nextPoint anchor period s) : c.turnAt anchor period t = c.turnAt anchor period s := by
  rw [turnAt, turnAt, periods_eq_of_lt_nextPoint (Nat.pos_of_ne_zero hne) hle hlt]

theorem turnAt_nextPoint_ne (hne : period ≠ 0) :
    c.turnAt anchor period (nextPoint anchor period s) ≠ c.turnAt anchor period s := by
  grind [turnAt, periods_nextPoint]

/-- Before the timeout a turn stays with the periods. -/
theorem roundRobin_congr (hs : ¬ c.TimedOut s) (ht : ¬ c.TimedOut t) (hle : s ≤ t)
    (hlt : c.postingTimeframe ≠ 0 →
      t < nextPoint c.tipSequencerStartingSlot c.postingTimeframe s) :
    c.roundRobin t = c.roundRobin s := by grind [roundRobin_eq, turnAt_eq_of_lt]

/-! ## The turn at the timeout -/

/-- The turn after a turn is another one, unless there is one key. -/
theorem succ_mod_eq_mod_iff {a n : Nat} : (a + 1) % n = a % n ↔ n = 1 := by
  refine ⟨fun h => ?_, fun h => by rw [h, Nat.mod_one, Nat.mod_one]⟩
  have hzero : 1 ≡ 0 [MOD n] := Nat.ModEq.add_left_cancel' a h
  exact Nat.dvd_one.mp ((Nat.modEq_zero_iff_dvd).mp hzero)

theorem roundRobin_at_timeout_eq_iff (h : ¬ c.TimedOut s) (hne : c.postingTimeout ≠ 0)
    (hseq : c.tipSequencer < 2 ^ 16) :
    c.roundRobin (c.tipSlot + c.postingTimeout) = c.roundRobin s ↔ c.SoleTurnAhead s := by
  have hkeys := List.length_pos_of_ne_nil c.accreditedKeys.nonempty
  have hlt : s < c.tipSlot + c.postingTimeout := Nat.lt_of_not_le fun hle => h ⟨hne, hle⟩
  have hwrap : ∀ k ≤ 1, wrappingAdd 64 c.tipSequencer k = c.tipSequencer + k :=
    fun k hk => Nat.mod_eq_of_lt (by omega)
  have hlost : c.roundRobin (c.tipSlot + c.postingTimeout) =
      ((c.tipSequencer + 1) % c.accreditedKeys.keys.length, c.tipSlot + c.postingTimeout) := by
    rw [roundRobin_eq, if_pos ⟨hne, le_rfl⟩, turnAt, Nat.add_sub_cancel_left,
      Nat.div_self (Nat.pos_of_ne_zero hne), Nat.one_mul, hwrap 1 le_rfl]
  rw [hlost, roundRobin_eq, if_neg h]
  split
  · next hframe =>
    rw [Prod.mk.injEq]
    constructor
    · rintro ⟨hindex, hstart⟩
      have hmod := Nat.mod_lt (c.tipSequencer + 1) hkeys
      have hone := succ_mod_eq_mod_iff.mp (hindex.trans (Nat.mod_eq_of_lt (hindex ▸ hmod)).symm)
      exact ⟨hone, hne, by omega, hstart.symm, fun _ => by omega⟩
    · rintro ⟨hone, -, -, hstart, hzero⟩
      rw [hone, hzero hframe, hstart]
      exact ⟨rfl, rfl⟩
  · next hframe =>
    -- A turn that has started has not started at the timeout.
    have hstarted := Nat.div_mul_le_self (s - c.tipSequencerStartingSlot) c.postingTimeframe
    have hzero : s < c.tipSequencerStartingSlot →
        (s - c.tipSequencerStartingSlot) / c.postingTimeframe = 0 := fun hahead => by
      rw [Nat.sub_eq_zero_of_le hahead.le, Nat.zero_div]
    rw [turnAt, Prod.mk.injEq]
    constructor
    · rintro ⟨hindex, hstart⟩
      have hahead : s < c.tipSequencerStartingSlot := by omega
      rw [hzero hahead] at hindex hstart
      rw [hwrap 0 (Nat.zero_le 1)] at hindex
      exact ⟨succ_mod_eq_mod_iff.mp hindex, hne, hahead, by omega, fun hno => absurd hno hframe⟩
    · rintro ⟨hone, -, hahead, hstart, -⟩
      grind

/-- The turn stays up to the boundary and is another one there, but for a sole key whose turn starts
ahead; without a boundary the turn never changes. -/
theorem round_robin_boundary_exact (hseq : c.tipSequencer < 2 ^ 16) (hfit : c.GridsFit s) :
    (∀ b, c.nextRoundRobinBoundary s = some b →
      s < b ∧ (∀ t, s ≤ t → t < b → c.roundRobin t = c.roundRobin s) ∧
        (c.roundRobin b ≠ c.roundRobin s ↔ ¬ c.SoleTurnAhead s)) ∧
    (c.nextRoundRobinBoundary s = none → ∀ t, s ≤ t → c.roundRobin t = c.roundRobin s) := by
  rw [boundary_eq hfit]
  by_cases h : c.TimedOut s
  · -- Only the turns that are lost count.
    have hlt : s < nextPoint c.tipSlot c.postingTimeout s := lt_nextPoint (Nat.pos_of_ne_zero h.1)
    have hlater : ∀ t, s ≤ t → c.roundRobin t = c.turnAt c.tipSlot c.postingTimeout t :=
      fun t hle => by rw [roundRobin_eq, if_pos ⟨h.1, h.2.trans hle⟩]
    rw [if_pos h]
    refine ⟨?_, fun hnone => nomatch hnone⟩
    rintro _ ⟨⟩
    rw [hlater _ hlt.le, hlater _ le_rfl]
    refine ⟨hlt, fun t hle ht => ?_, iff_of_true (turnAt_nextPoint_ne h.1) ?_⟩
    · rw [hlater t hle, turnAt_eq_of_lt h.1 hle ht]
    · rintro ⟨-, -, hahead, hstart, -⟩
      have := h.2
      omega
  · rw [if_neg h]
    have hafter : c.postingTimeout ≠ 0 → s < c.tipSlot + c.postingTimeout :=
      fun hne => Nat.lt_of_not_le fun hle => h ⟨hne, hle⟩
    refine ⟨fun b hb => ?_, fun hnone t _ => ?_⟩
    · -- The boundary is the end of the turn before the timeout, or the timeout.
      have hcases : (c.postingTimeframe ≠ 0 ∧
            b = nextPoint c.tipSequencerStartingSlot c.postingTimeframe s ∧
            (c.postingTimeout ≠ 0 → b < c.tipSlot + c.postingTimeout)) ∨
          (c.postingTimeout ≠ 0 ∧ b = c.tipSlot + c.postingTimeout ∧ (c.postingTimeframe ≠ 0 →
            b ≤ nextPoint c.tipSequencerStartingSlot c.postingTimeframe s)) := by
        grind [List.min?_cons]
      rcases hcases with ⟨hframe, rfl, hbefore⟩ | ⟨hout, rfl, hturn⟩
      · have hlt : s < nextPoint c.tipSequencerStartingSlot c.postingTimeframe s :=
          lt_nextPoint (Nat.pos_of_ne_zero hframe)
        refine ⟨hlt, fun t hle ht => ?_, iff_of_true ?_ ?_⟩
        · exact roundRobin_congr h (fun hto => (ht.trans (hbefore hto.1)).not_ge hto.2) hle fun _ => ht
        · rw [roundRobin_eq, roundRobin_eq, if_neg h,
            if_neg fun hto => (hbefore hto.1).not_ge hto.2, if_neg hframe, if_neg hframe]
          exact turnAt_nextPoint_ne hframe
        · rintro ⟨-, hne, -, hstart, -⟩
          grind [nextPoint]
      · refine ⟨hafter hout, fun t hle ht => ?_,
          not_congr (roundRobin_at_timeout_eq_iff h hout hseq)⟩
        exact roundRobin_congr h (fun hto => ht.not_ge hto.2) hle
          fun hframe => ht.trans_le (hturn hframe)
    · have hzero : c.postingTimeframe = 0 ∧ c.postingTimeout = 0 := by simp_all
      rw [roundRobin_eq, roundRobin_eq, if_neg h, if_neg fun hto => hto.1 hzero.2, if_pos hzero.1,
        if_pos hzero.1]

/-- Keys with turns of ten slots and a timeout of twenty-five. -/
def inTurns (keys : ChannelKeys) : ChannelState where
  accreditedKeys := keys
  configurationThreshold := 1
  tipMessage := 1
  configTipHash := 0
  tipSlot := 100
  tipSequencer := 1
  tipSequencerStartingSlot := 97
  postingTimeframe := 10
  postingTimeout := 25
  transferThreshold := 1

theorem round_robin_boundary_exact_two_keys :
    let c := inTurns ⟨[4, 5], List.cons_ne_nil _ _, by decide⟩
    c.nextRoundRobinBoundary 117 = some 125 ∧ c.roundRobin 117 = (1, 117) ∧
      c.roundRobin 125 = (0, 125) ∧
      (∀ t, 117 ≤ t → t < 125 → c.roundRobin t = c.roundRobin 117) ∧
      c.roundRobin 125 ≠ c.roundRobin 117 := by
  intro c
  obtain ⟨-, hstays, hchanges⟩ := (round_robin_boundary_exact (c := c) (s := 117) (by decide)
    ⟨fun _ => by decide, fun _ => by decide⟩).1 125 (by decide)
  exact ⟨by decide, by decide, by decide, hstays, hchanges.mpr (not_soleTurnAhead (by decide) 117)⟩

/-- One key whose turn starts at slot 5, when the timeout is reached. -/
def soleKeyAhead : ChannelState where
  accreditedKeys := ⟨[4], List.cons_ne_nil _ _, Nat.le_add_left 1 65534⟩
  configurationThreshold := 1
  tipMessage := 1
  configTipHash := 0
  tipSlot := 0
  tipSequencer := 0
  tipSequencerStartingSlot := 5
  postingTimeframe := 0
  postingTimeout := 5
  transferThreshold := 1

/-- The boundary is at slot 5, and the turn there is the one before. -/
theorem round_robin_same_at_boundary :
    soleKeyAhead.GridsFit 0 ∧ soleKeyAhead.nextRoundRobinBoundary 0 = some 5 ∧
      soleKeyAhead.roundRobin 5 = soleKeyAhead.roundRobin 0 :=
  ⟨⟨fun _ => by decide, fun h => absurd rfl h⟩, by decide, by decide⟩

end ChannelState

end Logos.Mantle
