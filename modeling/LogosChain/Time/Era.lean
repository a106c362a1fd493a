import LogosChain.Base.Except
import LogosChain.Base.Word

/-!
# The era schedule (`time/src/era.rs`)

A schedule is the genesis era and the eras after it, keyed by the epoch they start at. `new`
resolves them one after the other. The genesis era starts at slot 0
(`EraSchedule.genesis_first_slot`), so the `expect` of `at_slot` cannot fail and `atSlot` is total
here. The calls with their panics are `strictStartingSlotForEpoch` and `strictEpochForSlot`.
-/

namespace Logos

open Base

/-- What a schedule stores of an era. The time is in nanoseconds. -/
structure StoredEntry (P : Type) where
  firstSlot : Nat
  startTime : Int
  parameters : P

/-- An era of a schedule, resolved (`EraEntryView`). -/
structure EraEntryView (P : Type) where
  era : Nat
  firstEpoch : Nat
  firstSlot : Nat
  startTime : Int
  parameters : P

def StoredEntry.view {P : Type} (e : StoredEntry P) (era : Nat) (firstEpoch : Nat) :
    EraEntryView P :=
  ⟨era, firstEpoch, e.firstSlot, e.startTime, e.parameters⟩

/-- A chain's eras; `afterGenesis` is in the order of the keys. -/
structure EraSchedule (P : Type) where
  genesis : StoredEntry P
  afterGenesis : List (Nat × StoredEntry P)
  genesis_first_slot : genesis.firstSlot = 0
  sorted : (afterGenesis.map (·.1)).Pairwise (· < ·)
  positive : ∀ e ∈ afterGenesis, 0 < e.1

/-- Parameters that fix how many slots an epoch has. -/
class EpochLength (P : Type) where
  epochLength : P → Nat
  epochLength_pos : ∀ p, 0 < epochLength p

/-- Parameters that fix how long a slot lasts, in nanoseconds. -/
class SlotDuration (P : Type) where
  slotDuration : P → Nat

/-- The length of the slots and of the epochs of an era. -/
structure EraTiming where
  slotDuration : Nat
  epochLength : Nat
  epochLength_pos : 0 < epochLength

instance : SlotDuration EraTiming := ⟨EraTiming.slotDuration⟩

instance : EpochLength EraTiming := ⟨EraTiming.epochLength, EraTiming.epochLength_pos⟩

/-- An era with what `f` makes of its parameters. -/
def EraEntryView.map {P Q : Type} (f : P → Q) (e : EraEntryView P) : EraEntryView Q :=
  ⟨e.era, e.firstEpoch, e.firstSlot, e.startTime, f e.parameters⟩

namespace EraSchedule

variable {P Q : Type} (S : EraSchedule P)

/-- The eras after genesis, numbered from 1. -/
def erasAfterGenesis : List (EraEntryView P) :=
  S.afterGenesis.mapIdx fun i e => e.2.view (i + 1) e.1

/-- Every era, in schedule order. -/
def iter : List (EraEntryView P) := S.genesis.view 0 0 :: S.erasAfterGenesis

def get (era : Nat) : Option (EraEntryView P) := S.iter[era]?

/-- The last era before the first that `cond` does not hold for. -/
def lastStarted (cond : EraEntryView P → Bool) : Option (EraEntryView P) :=
  (S.iter.takeWhile cond).getLast?

theorem lastStarted_slot_isSome (slot : Nat) :
    (S.lastStarted fun era => era.firstSlot ≤ slot).isSome := by
  simp [StoredEntry.view, lastStarted, iter, List.getLast?_cons, genesis_first_slot]

/-- The era a slot belongs to. -/
def atSlot (slot : Nat) : EraEntryView P :=
  (S.lastStarted fun era => era.firstSlot ≤ slot).get (S.lastStarted_slot_isSome slot)

theorem atSlot_mem_iter (slot : Nat) : S.atSlot slot ∈ S.iter := by
  have hs : S.lastStarted (fun era => era.firstSlot ≤ slot) = some (S.atSlot slot) :=
    (Option.some_get _).symm
  exact (List.takeWhile_prefix _).subset (List.mem_of_getLast? hs)

/-- The genesis era fulfils the condition of `at_epoch`. -/
theorem lastStarted_epoch_isSome (epoch : Nat) :
    (S.lastStarted fun era => era.firstEpoch ≤ epoch).isSome := by
  have h0 : (S.genesis.view 0 0).firstEpoch ≤ epoch := Nat.zero_le _
  simp [lastStarted, iter, h0, List.getLast?_cons]

/-- The era of an epoch. -/
def atEpoch (epoch : Nat) : EraEntryView P :=
  (S.lastStarted fun era => era.firstEpoch ≤ epoch).get (S.lastStarted_epoch_isSome epoch)

/-! ## The same boundaries with other parameters -/

/-- The same schedule with other parameters. -/
def map (f : P → Q) : EraSchedule Q where
  genesis := ⟨S.genesis.firstSlot, S.genesis.startTime, f S.genesis.parameters⟩
  afterGenesis := S.afterGenesis.map fun e =>
    (e.1, ⟨e.2.firstSlot, e.2.startTime, f e.2.parameters⟩)
  genesis_first_slot := S.genesis_first_slot
  sorted := by simpa [Function.comp_def] using S.sorted
  positive := by
    intro e he
    obtain ⟨e', he', rfl⟩ := List.mem_map.mp he
    exact S.positive e' he'

/-! ## Epochs and slots -/

/-- The first slot of an epoch, by the length of its era. -/
def startingSlotForEpoch [EpochLength P] (epoch : Nat) : Nat :=
  (S.atEpoch epoch).firstSlot +
    (epoch - (S.atEpoch epoch).firstEpoch) * EpochLength.epochLength (S.atEpoch epoch).parameters

/-- The epoch of a slot, by the length of its era. -/
def epochForSlot [EpochLength P] (slot : Nat) : Nat :=
  (S.atSlot slot).firstEpoch +
    (slot - (S.atSlot slot).firstSlot) / EpochLength.epochLength (S.atSlot slot).parameters

/-- `starting_slot_for_epoch`; none if it panics. -/
def strictStartingSlotForEpoch [EpochLength P] (epoch : Nat) : Option Nat := do
  let era := S.atEpoch epoch
  let elapsedEraSlots ←
    checkedMul 64 (epoch - era.firstEpoch) (EpochLength.epochLength era.parameters)
  checkedAdd 64 era.firstSlot elapsedEraSlots

/-- `epoch_for_slot`; none if the epoch does not fit its word. -/
def strictEpochForSlot [EpochLength P] (slot : Nat) : Option Nat :=
  if S.epochForSlot slot < 2 ^ 32 then some (S.epochForSlot slot) else none

/-- One era from genesis on. -/
def single (parameters : P) : EraSchedule P :=
  ⟨⟨0, 0, parameters⟩, [], rfl, by simp, by simp⟩

end EraSchedule

/-! ## Slots and time -/

/-- The times of an `OffsetDateTime`, in nanoseconds. -/
class DateTimeRange where
  min : Int
  max : Int

/-- The years -9999 to 9999 of UTC. -/
@[reducible]
def DateTimeRange.utc : DateTimeRange := ⟨-377705116800 * 10 ^ 9, 253402300800 * 10 ^ 9 - 1⟩

/-- `OffsetDateTime::checked_add`. -/
def checkedAddSpan [DateTimeRange] (time : Int) (span : Nat) : Option Int :=
  if DateTimeRange.min ≤ time + span ∧ time + span ≤ DateTimeRange.max then some (time + span)
  else none

/-- A number of slots as a `Duration`; none past the longest. -/
def span (slotDuration slots : Nat) : Option Nat := do
  let nanos ← checkedMul 128 slotDuration slots
  if nanos < 2 ^ 64 * 10 ^ 9 ∧ nanos / 10 ^ 9 < 2 ^ 63 then some nanos else none

/-- How a question about a time ends without an answer. -/
inductive TimePanic where
  /-- A division by the duration of a slot. -/
  | divisionByZero
  /-- "the slot in progress must fit a slot number" -/
  | slotNumber
deriving DecidableEq, Repr

namespace EraSchedule

variable {P : Type} (S : EraSchedule P) [SlotDuration P]

/-- The slot in progress at a time; none before genesis. -/
def slotAt (time : Int) : Except TimePanic (Option Nat) :=
  match S.lastStarted fun era => era.startTime ≤ time with
  | none => .ok none
  | some era => do
    let sinceStart := (time - era.startTime).toNat
    failIf (SlotDuration.slotDuration era.parameters = 0) .divisionByZero
    let elapsedEraSlots := sinceStart / SlotDuration.slotDuration era.parameters
    failIf (2 ^ 64 ≤ elapsedEraSlots) .slotNumber
    let slot ← okOr (checkedAdd 64 era.firstSlot elapsedEraSlots) .slotNumber
    return some slot

/-- When a slot starts; none past the last time. -/
def checkedTimeOf [DateTimeRange] (slot : Nat) : Option Int := do
  let era := S.atSlot slot
  let span ← span (SlotDuration.slotDuration era.parameters) (slot - era.firstSlot)
  checkedAddSpan era.startTime span

end EraSchedule

/-! ## Resolving the eras -/

/-- The eras after genesis by first epoch, fewer than can be numbered. -/
structure EraEntriesAfterGenesis (P : Type) where
  entries : List (Nat × P)
  sorted : (entries.map (·.1)).Pairwise (· < ·)
  positive : ∀ e ∈ entries, 0 < e.1
  key_lt : ∀ e ∈ entries, e.1 < 2 ^ 32
  bounded : entries.length ≤ 2 ^ 16 - 1

/-- Why there is no schedule of some eras. -/
inductive ErasError where
  | overflow (era : Nat)
deriving DecidableEq, Repr

namespace EraSchedule

variable {P : Type} [EpochLength P] [SlotDuration P] [DateTimeRange]

/-- Where the era after an era starts, in slots and in time. -/
def nextEraStart (era : EraEntryView P) (nextEraFirstEpoch : Nat) : Option (Nat × Int) := do
  let epochsInEra ← checkedSub nextEraFirstEpoch era.firstEpoch
  let slotsInEra ← checkedMul 64 epochsInEra (EpochLength.epochLength era.parameters)
  let nextEraFirstSlot ← checkedAdd 64 era.firstSlot slotsInEra
  let span ← span (SlotDuration.slotDuration era.parameters) slotsInEra
  let nextEraStartTime ← checkedAddSpan era.startTime span
  return (nextEraFirstSlot, nextEraStartTime)

/-- The loop of `new`: the eras after those so far. -/
def resolve (previousEra : EraEntryView P) :
    List (Nat × P) → Except ErasError (List (Nat × StoredEntry P))
  | [] => .ok []
  | (firstEpoch, parameters) :: rest => do
    let era := previousEra.era + 1
    let (firstSlot, startTime) ← okOr (nextEraStart previousEra firstEpoch) (.overflow era)
    let entry : StoredEntry P := ⟨firstSlot, startTime, parameters⟩
    let entries ← resolve (entry.view era firstEpoch) rest
    return (firstEpoch, entry) :: entries

theorem resolve_keys {previousEra : EraEntryView P} {l : List (Nat × P)}
    {r : List (Nat × StoredEntry P)} (h : resolve previousEra l = .ok r) :
    r.map (·.1) = l.map (·.1) := by
  induction l generalizing previousEra r with
  | nil => cases h; rfl
  | cons e l ih =>
    obtain ⟨_, -, h1⟩ := bind_ok h
    obtain ⟨entries, h2, h3⟩ := bind_ok h1
    cases h3
    rw [List.map_cons, List.map_cons, ih h2]

/-- Resolves the eras of a chain. -/
def new (genesisTime : Int) (genesis : P) (afterGenesis : EraEntriesAfterGenesis P) :
    Except ErasError (EraSchedule P) :=
  let entry : StoredEntry P := ⟨0, genesisTime, genesis⟩
  match h : resolve (entry.view 0 0) afterGenesis.entries with
  | .error e => .error e
  | .ok entries => .ok {
      genesis := entry
      afterGenesis := entries
      genesis_first_slot := rfl
      sorted := by rw [resolve_keys h]; exact afterGenesis.sorted
      positive := by
        intro e he
        have hkey : e.1 ∈ afterGenesis.entries.map (·.1) := by
          rw [← resolve_keys h]
          exact List.mem_map_of_mem he
        obtain ⟨e', he', heq⟩ := List.mem_map.mp hkey
        exact heq ▸ afterGenesis.positive e' he' }

end EraSchedule

end Logos
