import LogosChain.Base.Except
import LogosChain.Base.Word
import LogosChain.Mantle.Types

/-!
# Channels (`core/src/mantle/channel.rs`, `channel_notes.rs`)

A channel has the keys that may write to it, in turns, and it owns notes. `Channels` has the state
of every channel and, for each note in a channel, the channel that owns it.
-/

namespace Logos.Mantle

open Base

/-- Why a note cannot enter or leave a channel. -/
inductive ChannelNotesError where
  | notInChannel (noteId : NoteId)
  | notAChannelNote (noteId : NoteId) (channelId : ChannelId)
  | alreadyAChannelNote (noteId : NoteId) (channelId : ChannelId)
deriving DecidableEq, Repr

/-- The channel that owns each note in a channel. -/
abbrev ChannelNotes := Map NoteId ChannelId

namespace ChannelNotes

def contains (m : ChannelNotes) (noteId : NoteId) : Bool := (m.lookup noteId).isSome

def isAChannel (m : ChannelNotes) (noteId : NoteId) (channelId : ChannelId) : Bool :=
  m.lookup noteId = some channelId

/-- A note enters a channel. -/
def intoChannel (m : ChannelNotes) (noteId : NoteId) (channelId : ChannelId) :
    Except ChannelNotesError ChannelNotes :=
  match m.lookup noteId with
  | some channel => .error (.alreadyAChannelNote noteId channel)
  | none => .ok (m.insert noteId channelId)

/-- A note leaves its channel. -/
def intoBedrock (m : ChannelNotes) (noteId : NoteId) (channelId : ChannelId) :
    Except ChannelNotesError ChannelNotes :=
  match m.lookup noteId with
  | some channel =>
    if channel = channelId then .ok (m.erase noteId)
    else .error (.notAChannelNote noteId channelId)
  | none => .error (.notInChannel noteId)

variable {n : NoteId} {c : ChannelId}

theorem intoChannel_ok {m m' : ChannelNotes} :
    m.intoChannel n c = .ok m' ↔ m.lookup n = none ∧ m' = m.insert n c := by
  unfold intoChannel
  cases h : m.lookup n <;> simp [eq_comm]

theorem intoBedrock_ok {m m' : ChannelNotes} :
    m.intoBedrock n c = .ok m' ↔ m.lookup n = some c ∧ m' = m.erase n := by grind [intoBedrock]

end ChannelNotes

/-- The state of a channel. -/
structure ChannelState where
  accreditedKeys : ChannelKeys
  /-- How many keys have to sign a configuration. -/
  configurationThreshold : Nat
  tipMessage : MsgId
  configTipHash : MsgId
  tipSlot : Nat
  /-- The index of the key whose turn it is. -/
  tipSequencer : Nat
  tipSequencerStartingSlot : Nat
  /-- The slots of a turn; no limit if zero. -/
  postingTimeframe : Nat
  /-- The slots without a message after which a turn is lost; never if zero. -/
  postingTimeout : Nat
  /-- How many keys have to sign a transfer or a withdrawal. -/
  transferThreshold : Nat
deriving DecidableEq

def defaultTransferThreshold : Nat := 1

namespace ChannelState

/-- Whose turn it is at a slot, and since when. Lost turns count first. -/
def roundRobin (c : ChannelState) (blockSlot : Nat) : Nat × Nat :=
  let elapsedSlotSinceLastTip := blockSlot - c.tipSlot
  let tipSequencerDuration := blockSlot - c.tipSequencerStartingSlot
  let numSequencers := c.accreditedKeys.keys.length
  let isTimedOut := decide (c.postingTimeout ≤ elapsedSlotSinceLastTip ∧ c.postingTimeout ≠ 0)
  let sequencersTimedOut := (checkedDiv elapsedSlotSinceLastTip c.postingTimeout).filter
    fun _ => isTimedOut
  let timeframeElapsed := checkedDiv tipSequencerDuration c.postingTimeframe
  let index := ((sequencersTimedOut.or timeframeElapsed).map
    fun turns => wrappingAdd 64 c.tipSequencer turns % numSequencers).getD c.tipSequencer
  let startingSlot :=
    ((sequencersTimedOut.map fun turns => c.tipSlot + turns * c.postingTimeout).or
      (timeframeElapsed.map fun turns =>
        c.tipSequencerStartingSlot + turns * c.postingTimeframe)).getD c.tipSequencerStartingSlot
  (index, startingSlot)

end ChannelState

/-- The states of all channels, and the notes they own. -/
structure Channels where
  channels : Map ChannelId ChannelState
  channelNotes : ChannelNotes
deriving DecidableEq

namespace Channels

def new : Channels := ⟨∅, ∅⟩

def channelState (c : Channels) (channelId : ChannelId) : Option ChannelState :=
  c.channels.lookup channelId

/-- How many keys have to sign; none without the channel. -/
def configurationThreshold (c : Channels) (channelId : ChannelId) : Nat :=
  ((c.channels.lookup channelId).map (·.configurationThreshold)).getD 0

/-- How many keys have to sign; none without the channel. -/
def transferThreshold (c : Channels) (channelId : ChannelId) : Nat :=
  ((c.channels.lookup channelId).map (·.transferThreshold)).getD 0

def isChannelNote (c : Channels) (noteId : NoteId) : Bool := c.channelNotes.contains noteId

def isChannelNoteOf (c : Channels) (noteId : NoteId) (channelId : ChannelId) : Bool :=
  c.channelNotes.isAChannel noteId channelId

def registerChannelNote (c : Channels) (noteId : NoteId) (channelId : ChannelId) :
    Except ChannelNotesError Channels := do
  let notes ← c.channelNotes.intoChannel noteId channelId
  return { c with channelNotes := notes }

def unregisterChannelNote (c : Channels) (noteId : NoteId) (channelId : ChannelId) :
    Except ChannelNotesError Channels := do
  let notes ← c.channelNotes.intoBedrock noteId channelId
  return { c with channelNotes := notes }

/-- Gives notes to a channel, one after the other. -/
def registerAll (c : Channels) (ids : List NoteId) (channelId : ChannelId) :
    Except ChannelNotesError Channels :=
  ids.foldlM (fun c id => c.registerChannelNote id channelId) c

/-- Takes notes from a channel, one after the other. -/
def unregisterAll (c : Channels) (ids : List NoteId) (channelId : ChannelId) :
    Except ChannelNotesError Channels :=
  ids.foldlM (fun c id => c.unregisterChannelNote id channelId) c

/-- The channels with another state of one of them. -/
def setChannel (c : Channels) (channelId : ChannelId) (state : ChannelState) : Channels :=
  { c with channels := c.channels.insert channelId state }

variable {c c' : Channels} {ids : List NoteId} {k : ChannelId}

theorem isChannelNote_eq_false {n : NoteId} :
    c.isChannelNote n = false ↔ c.channelNotes.lookup n = none := by
  simp [isChannelNote, ChannelNotes.contains]

theorem channelState_setChannel (c : Channels) (k k' : ChannelId) (state : ChannelState) :
    (c.setChannel k state).channelState k' = if k' = k then some state else c.channelState k' :=
  Map.lookup_insert_ite _ _ _ _

/-- A loop that moves notes from one place to another. -/
theorem lookup_of_foldlM {ε : Type} {f : Channels → NoteId → Except ε Channels}
    {source target : Option ChannelId}
    (hf : ∀ c id c', f c id = .ok c' → c'.channels = c.channels ∧
      c.channelNotes.lookup id = source ∧
      ∀ n, c'.channelNotes.lookup n = if n = id then target else c.channelNotes.lookup n)
    (h : ids.foldlM f c = .ok c') :
    c'.channels = c.channels ∧ (∀ n ∈ ids, c.channelNotes.lookup n = source) ∧
      ∀ n, c'.channelNotes.lookup n = if n ∈ ids then target else c.channelNotes.lookup n := by
  induction ids generalizing c with
  | nil => cases foldlM_nil_ok h; simp
  | cons id ids ih =>
    obtain ⟨c1, h1, h2⟩ := foldlM_cons_ok h
    grind

/-- The notes were in no channel, and are in this one now. -/
theorem registerAll_ok (h : c.registerAll ids k = .ok c') :
    c'.channels = c.channels ∧ (∀ n ∈ ids, c.channelNotes.lookup n = none) ∧
      ∀ n, c'.channelNotes.lookup n = if n ∈ ids then some k else c.channelNotes.lookup n := by
  refine lookup_of_foldlM (fun c id c1 h1 => ?_) h
  obtain ⟨m, hm, h2⟩ := bind_ok h1
  cases h2
  grind [Map.lookup_insert_ite, ChannelNotes.intoChannel_ok]

/-- The notes were in the channel, and are in none now. -/
theorem unregisterAll_ok (h : c.unregisterAll ids k = .ok c') :
    c'.channels = c.channels ∧ (∀ n ∈ ids, c.channelNotes.lookup n = some k) ∧
      ∀ n, c'.channelNotes.lookup n = if n ∈ ids then none else c.channelNotes.lookup n := by
  refine lookup_of_foldlM (fun c id c1 h1 => ?_) h
  obtain ⟨m, hm, h2⟩ := bind_ok h1
  cases h2
  grind [Map.lookup_erase_ite, ChannelNotes.intoBedrock_ok]

end Channels

end Logos.Mantle
