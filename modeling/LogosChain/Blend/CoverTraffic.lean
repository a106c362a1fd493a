import LogosChain.Base.Except
import LogosChain.Base.Word
import Mathlib.Algebra.Order.Field.Basic
import Mathlib.Data.Rat.Cast.Order

/-!
# Cover traffic (`blend/scheduling/src/cover_traffic.rs`)

In some rounds of an epoch, the release rounds, a node emits a cover message or lets a data message
of its own stand for one. Each round is one with the probability of the messages left in the rounds
left. Probabilities are exact fractions.
-/

namespace Logos.Blend

open Base

/-- The assertions of the scheduler. -/
inductive CoverPanic where
  /-- "If there are no remaining rounds, there should be no remaining messages." -/
  | messagesWithoutRounds
  /-- "There should be at least one remaining message if this is a release round." -/
  | releaseWithoutMessages
  /-- The probability of `gen_bool` is not between 0 and 1. -/
  | probabilityOutOfRange
  /-- "Overflow when incrementing unprocessed data messages." -/
  | dataMessageOverflow
deriving DecidableEq, Repr

/-- The rounds of an epoch and the cover messages to emit in it. -/
structure Settings where
  roundsPerEpoch : Nat
  messageCount : Nat
  roundsPerEpoch_pos : 0 < roundsPerEpoch

/-- The messages and rounds left, and the data messages not yet accounted for. -/
structure EpochCoverTraffic where
  remainingMessages : Nat
  remainingRounds : Nat
  unprocessedDataMessages : Nat
deriving DecidableEq, Repr

/-- Which way a round went; the source returns whether it is `emitted`. -/
inductive RoundOutcome where
  | epochOver
  | noRelease
  | skipped
  | emitted
deriving DecidableEq, Repr

/-- `gen_bool`: a draw below the probability. -/
def genBool (p : ℚ) (draw : Set.Ico (0 : ℚ) 1) : Except CoverPanic Bool :=
  if 0 ≤ p ∧ p ≤ 1 then .ok (draw.1 < p) else .error .probabilityOutOfRange

namespace EpochCoverTraffic

/-- At most one message for each round. -/
def new (settings : Settings) : EpochCoverTraffic :=
  let effectiveMessageCount :=
    if settings.messageCount ≤ settings.roundsPerEpoch then settings.messageCount
    else settings.roundsPerEpoch
  ⟨effectiveMessageCount, settings.roundsPerEpoch, 0⟩

/-- A round; a data message may stand for its cover message. -/
def consumeRound (t : EpochCoverTraffic) (draw : Set.Ico (0 : ℚ) 1) (coin : Set.Icc (0 : ℚ) 1) :
    Except CoverPanic (RoundOutcome × EpochCoverTraffic) :=
  if t.remainingRounds = 0 then do
    failIf (t.remainingMessages ≠ 0) .messagesWithoutRounds
    return (.epochOver, t)
  else do
    let consumed := { t with remainingRounds := t.remainingRounds - 1 }
    let isReleaseRound ← genBool (t.remainingMessages / t.remainingRounds) draw
    if ¬ isReleaseRound then return (.noRelease, consumed)
    failIf (t.remainingMessages = 0) .releaseWithoutMessages
    -- the quota is spent, whether a cover message is emitted or not
    let released := { consumed with remainingMessages := t.remainingMessages - 1 }
    if t.unprocessedDataMessages = 0 then return (.emitted, released)
    if coin.1 ≤ t.unprocessedDataMessages / t.remainingMessages then
      return (.skipped, { released with unprocessedDataMessages := t.unprocessedDataMessages - 1 })
    return (.emitted, released)

/-- Counts a data message that is yet to stand for a cover message. -/
def notifyNewDataMessage (t : EpochCoverTraffic) : Except CoverPanic EpochCoverTraffic := do
  let count ← okOr (checkedAdd 64 t.unprocessedDataMessages 1) .dataMessageOverflow
  return { t with unprocessedDataMessages := count }

end EpochCoverTraffic

/-- A round with its random draws, or a data message of the node. -/
inductive CoverEvent where
  | round (draw : Set.Ico (0 : ℚ) 1) (coin : Set.Icc (0 : ℚ) 1)
  | dataMessage

/-- How many events are rounds. -/
def roundsOf (events : List CoverEvent) : Nat := events.countP (· matches .round ..)

/-- How many events are data messages. -/
def dataMessagesOf (events : List CoverEvent) : Nat := events.countP (· matches .dataMessage)

/-- A scheduler with the release rounds and the cover messages so far. -/
structure CoverEpoch extends EpochCoverTraffic where
  releaseRounds : Nat
  coverMessages : Nat

namespace CoverEpoch

/-- One event. -/
def step (e : CoverEpoch) : CoverEvent → Except CoverPanic CoverEpoch
  | .round draw coin => do
    let (outcome, t) ← e.consumeRound draw coin
    return match outcome with
      | .epochOver | .noRelease => ⟨t, e.releaseRounds, e.coverMessages⟩
      | .skipped => ⟨t, e.releaseRounds + 1, e.coverMessages⟩
      | .emitted => ⟨t, e.releaseRounds + 1, e.coverMessages + 1⟩
  | .dataMessage => do
    let t ← e.notifyNewDataMessage
    return ⟨t, e.releaseRounds, e.coverMessages⟩

/-- The events of an epoch. -/
def run (settings : Settings) (events : List CoverEvent) : Except CoverPanic CoverEpoch :=
  events.foldlM step ⟨.new settings, 0, 0⟩

/-- A release round spends a message of the quota. -/
structure Kept (settings : Settings) (rounds dataMessages : Nat) (e : CoverEpoch) : Prop where
  messages_le : e.remainingMessages ≤ e.remainingRounds
  rounds : e.remainingRounds = settings.roundsPerEpoch - rounds
  quota : e.releaseRounds + e.remainingMessages =
    min settings.messageCount settings.roundsPerEpoch
  data : e.releaseRounds + e.unprocessedDataMessages = e.coverMessages + dataMessages
  covers_le : e.coverMessages ≤ e.releaseRounds

variable {settings : Settings} {r d : Nat} {e : CoverEpoch} {events : List CoverEvent}

/-- A round ends without a panic: the probability is between 0 and 1. -/
theorem Kept.round (h : Kept settings r d e) (draw : Set.Ico (0 : ℚ) 1) (coin : Set.Icc (0 : ℚ) 1) :
    ∃ e', e.step (.round draw coin) = .ok e' ∧ Kept settings (r + 1) d e' := by
  obtain ⟨⟨messages, rounds, data⟩, releases, covers⟩ := e
  obtain ⟨hle, hrounds, hquota, hdata, hcovers⟩ := h
  dsimp only at hle hrounds hquota hdata hcovers
  by_cases hover : rounds = 0
  · obtain rfl : messages = 0 := by omega
    subst hover
    exact ⟨_, rfl, by constructor <;> dsimp only <;> omega⟩
  have hpos : (0 : ℚ) < rounds := Nat.cast_pos.mpr (Nat.pos_of_ne_zero hover)
  have hp : (0 : ℚ) ≤ messages / rounds ∧ (messages / rounds : ℚ) ≤ 1 :=
    ⟨div_nonneg (Nat.cast_nonneg _) hpos.le, (div_le_one hpos).mpr (Nat.cast_le.mpr hle)⟩
  simp only [step, EpochCoverTraffic.consumeRound, genBool, if_neg hover, if_pos hp]
  by_cases hdraw : draw.1 < (messages / rounds : ℚ)
  · have hne : messages ≠ 0 := by
      rintro rfl
      rw [Nat.cast_zero, zero_div] at hdraw
      exact hdraw.not_ge draw.2.1
    simp only [bind, Except.bind, hdraw, decide_true, not_true, if_false, failIf_of_not hne]
    by_cases hnone : data = 0
    · simp only [hnone, if_true]
      exact ⟨_, rfl, by constructor <;> dsimp only <;> omega⟩
    by_cases hcoin : coin.1 ≤ (data / messages : ℚ)
    · simp only [hnone, hcoin, if_true, if_false]
      exact ⟨_, rfl, by constructor <;> dsimp only <;> omega⟩
    · simp only [hnone, hcoin, if_false]
      exact ⟨_, rfl, by constructor <;> dsimp only <;> omega⟩
  · have hne : messages ≠ rounds := by
      rintro rfl
      rw [div_self hpos.ne'] at hdraw
      exact hdraw draw.2.2
    simp only [bind, Except.bind, hdraw, decide_false, Bool.false_eq_true, not_false_iff, if_true]
    exact ⟨_, rfl, by constructor <;> dsimp only <;> omega⟩

theorem Kept.dataMessage (h : Kept settings r d e) :
    (∃ e', e.step .dataMessage = .ok e' ∧ Kept settings r (d + 1) e') ∨
      e.step .dataMessage = .error .dataMessageOverflow ∧ 2 ^ 64 ≤ d + 1 := by
  obtain ⟨hle, hrounds, hquota, hdata, hcovers⟩ := h
  simp only [step, EpochCoverTraffic.notifyNewDataMessage, checkedAdd]
  split
  · exact .inl ⟨_, rfl, by constructor <;> dsimp only <;> omega⟩
  · exact .inr ⟨rfl, by omega⟩

/-- The only panic of a scheduler is that of a counter with too many data messages. -/
theorem Kept.run (h : Kept settings r d e) (events : List CoverEvent) :
    (∀ p, events.foldlM step e = .error p →
      p = .dataMessageOverflow ∧ 2 ^ 64 ≤ d + dataMessagesOf events) ∧
    ∀ e', events.foldlM step e = .ok e' →
      Kept settings (r + roundsOf events) (d + dataMessagesOf events) e' := by
  induction events generalizing r d e with
  | nil =>
    refine ⟨fun p hp => (by cases hp), fun e' he => ?_⟩
    cases he
    exact h
  | cons event events ih =>
    rw [List.foldlM_cons]
    cases event with
    | round draw coin =>
      obtain ⟨e', hstep, h'⟩ := h.round draw coin
      rw [bind_of_ok hstep]
      simpa [roundsOf, dataMessagesOf, Nat.add_assoc, Nat.add_comm 1] using ih h'
    | dataMessage =>
      rcases h.dataMessage with ⟨e', hstep, h'⟩ | ⟨hstep, hmany⟩
      · rw [bind_of_ok hstep]
        simpa [roundsOf, dataMessagesOf, Nat.add_assoc, Nat.add_comm 1] using ih h'
      · rw [hstep]
        refine ⟨fun p hp => ?_, fun e' he => by cases he⟩
        cases hp
        exact ⟨rfl, by simp [dataMessagesOf]; omega⟩

/-- No round panics (short of `2 ^ 64` data messages), an epoch has as many release rounds as the
quota, and at least as many cover messages as that less the data messages. -/
theorem cover_traffic_exact (settings : Settings) (events : List CoverEvent) :
    (∀ p, run settings events = .error p →
      p = .dataMessageOverflow ∧ 2 ^ 64 ≤ dataMessagesOf events) ∧
    ∀ e, run settings events = .ok e → e.remainingMessages ≤ e.remainingRounds ∧
      (settings.roundsPerEpoch ≤ roundsOf events →
        e.releaseRounds = min settings.messageCount settings.roundsPerEpoch ∧
        min settings.messageCount settings.roundsPerEpoch - dataMessagesOf events ≤
          e.coverMessages) := by
  have hquota : (EpochCoverTraffic.new settings).remainingMessages =
      min settings.messageCount settings.roundsPerEpoch := by
    show (if _ then _ else _) = _
    split <;> omega
  have hstart : Kept settings 0 0 ⟨.new settings, 0, 0⟩ :=
    ⟨hquota.le.trans (Nat.min_le_right _ _), rfl, by simp [hquota], rfl, le_rfl⟩
  obtain ⟨hpanic, hkept⟩ := hstart.run events
  refine ⟨fun p hp => by simpa using hpanic p hp, fun e he => ?_⟩
  obtain ⟨hle, hrounds, hspent, hdata, -⟩ := hkept e he
  exact ⟨hle, fun hover => ⟨by omega, by omega⟩⟩

end CoverEpoch

end Logos.Blend
