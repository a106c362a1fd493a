import LogosChain.Mantle.Channel
import LogosChain.Mantle.Service
import LogosChain.Merkle.Tree

/-!
# Inputs and outputs (`core/src/mantle/ledger.rs`)

What an operation spends and what it creates: which notes may be spent, and how the set of unspent
notes changes.
-/

namespace Logos.Mantle

open Base

/-- The unspent notes. -/
abbrev Utxos := FlatTree NoteId Utxo

/-- Why inputs are refused. -/
inductive InputsError where
  | inexistingNote (noteId : NoteId)
  | serviceNote (noteId : NoteId)
  | channelNote (noteId : NoteId)
  | notAChannelNote (noteId : NoteId)
  | emptyInputs
  | doubleSpend
  | inputsOverflow
deriving DecidableEq, Repr

/-- Why outputs are refused. -/
inductive OutputsError where
  | zeroValueNote
  | outputsOverflow
deriving DecidableEq, Repr

/-- The value of all the notes of a set. -/
def Utxos.value (utxos : Utxos) : Nat := utxos.total (·.note.value)

namespace Inputs

def preverify (i : Inputs) : Except InputsError Unit := failIf (i.ids = []) .emptyInputs

/-- No input twice. -/
def validateUniqueness (i : Inputs) : Except InputsError Unit :=
  failIf (i.ids.dedup.length ≠ i.ids.length) .doubleSpend

/-- The inputs are unspent and do not serve. -/
def validateNotInServiceAndPresent (i : Inputs) (serviceNotes : ServiceNotes) (utxos : Utxos) :
    Except InputsError Unit :=
  i.ids.forM fun id => do
    failIf (serviceNotes.contains id) (.serviceNote id)
    failIf (!utxos.contains id) (.inexistingNote id)

/-- The inputs are distinct, unspent, in no service or channel. -/
def validateNotInChannel (i : Inputs) (serviceNotes : ServiceNotes) (channels : Channels)
    (utxos : Utxos) : Except InputsError Unit := do
  i.validateUniqueness
  i.validateNotInServiceAndPresent serviceNotes utxos
  i.ids.forM fun id => failIf (channels.isChannelNote id) (.channelNote id)

/-- The inputs are distinct, unspent notes of the channel. -/
def validateInChannel (i : Inputs) (serviceNotes : ServiceNotes) (channels : Channels)
    (channelId : ChannelId) (utxos : Utxos) : Except InputsError Unit := do
  i.validateUniqueness
  i.validateNotInServiceAndPresent serviceNotes utxos
  i.ids.forM fun id => failIf (!channels.isChannelNoteOf id channelId) (.notAChannelNote id)

/-- Takes an input out of the unspent notes. -/
def spend (utxos : Utxos) (id : NoteId) : Except InputsError Utxos := do
  let (utxos, _) ← okOr (utxos.remove id) (.inexistingNote id)
  return utxos

/-- Takes the inputs out of the unspent notes. -/
def execute (i : Inputs) (utxos : Utxos) : Except InputsError Utxos := i.ids.foldlM spend utxos

def noteOf (utxos : Utxos) (id : NoteId) : Except InputsError Note :=
  okOr ((utxos.get id).map (·.note)) (.inexistingNote id)

def addAmount (utxos : Utxos) (amount : Nat) (id : NoteId) : Except InputsError Nat := do
  let note ← noteOf utxos id
  okOr (checkedAdd 64 amount note.value) .inputsOverflow

def amount (i : Inputs) (utxos : Utxos) : Except InputsError Nat := i.ids.foldlM (addAmount utxos) 0

/-- The keys of the inputs. -/
def getPk (i : Inputs) (utxos : Utxos) : Except InputsError (List ZkPublicKey) :=
  i.ids.mapM fun id => do return (← noteOf utxos id).pk

end Inputs

namespace Outputs

variable [Primitives]

/-- The outputs of the operation with an id, by their places. -/
def utxos (o : Outputs) (opId : Hash) : List Utxo :=
  o.notes.mapIdx fun index note => ⟨opId, index, note⟩

def validate (o : Outputs) : Except OutputsError Unit :=
  o.notes.forM fun note => failIf (note.value = 0) .zeroValueNote

def amount (o : Outputs) : Except OutputsError Nat :=
  o.notes.foldlM (fun amount note => okOr (checkedAdd 64 amount note.value) .outputsOverflow) 0

end Outputs

/-- Adds notes to the unspent notes, one after the other. -/
def Utxos.insertAll [Primitives] (utxos : Utxos) (new : List Utxo) : Utxos :=
  new.foldl (fun utxos u => utxos.insert u.id u) utxos

/-- Adds the outputs to the unspent notes. -/
def Outputs.execute [Primitives] (o : Outputs) (utxos : Utxos) (opId : Hash) : Utxos :=
  utxos.insertAll (o.utxos opId)

namespace Inputs

variable {i : Inputs} {serviceNotes : ServiceNotes} {channels : Channels} {utxos utxos' : Utxos}
  {channelId : ChannelId} {u : Unit}

theorem validateNotInServiceAndPresent_ok
    (h : i.validateNotInServiceAndPresent serviceNotes utxos = .ok u) :
    ∀ n ∈ i.ids, serviceNotes.lookup n = none := by
  intro n hn
  obtain ⟨_, h1, -⟩ := bind_ok (forM_ok.mp h n hn)
  rw [failIf_ok, Bool.not_eq_true] at h1
  exact ServiceNotes.contains_eq_false.mp h1

theorem validateNotInChannel_ok (h : i.validateNotInChannel serviceNotes channels utxos = .ok u) :
    ∀ n ∈ i.ids, serviceNotes.lookup n = none ∧ channels.channelNotes.lookup n = none := by
  intro n hn
  obtain ⟨_, -, h1⟩ := bind_ok h
  obtain ⟨_, h2, h3⟩ := bind_ok h1
  grind [failIf_ok, validateNotInServiceAndPresent_ok, forM_ok, Channels.isChannelNote_eq_false]

theorem validateInChannel_ok
    (h : i.validateInChannel serviceNotes channels channelId utxos = .ok u) :
    ∀ n ∈ i.ids, serviceNotes.lookup n = none := by
  obtain ⟨_, -, h1⟩ := bind_ok h
  obtain ⟨_, h2, -⟩ := bind_ok h1
  exact validateNotInServiceAndPresent_ok h2

end Inputs

/-- The value of an unspent note; zero if there is none. -/
def Utxos.valueOf (utxos : Utxos) (n : NoteId) : Nat := ((utxos.get n).map (·.note.value)).getD 0

variable {i : Inputs} {utxos : Utxos}

/-- The value of the inputs is the sum of their notes. -/
theorem Inputs.amount_ok {a : Nat} (h : i.amount utxos = .ok a) :
    a = (i.ids.map utxos.valueOf).sum := by
  have hstep : ∀ s n t, addAmount utxos s n = .ok t → t = s + utxos.valueOf n := by
    intro s n t h
    obtain ⟨note, h1, h2⟩ := bind_ok h
    obtain ⟨u, hu, rfl⟩ := Option.map_eq_some_iff.mp (okOr_ok.mp h1)
    grind [Utxos.valueOf, checkedAdd_eq_some, okOr_ok]
  simpa using foldlM_sum hstep h

/-- The value of the outputs is the sum of their notes. -/
theorem Outputs.amount_ok {o : Outputs} {a : Nat} (h : o.amount = .ok a) :
    a = (o.notes.map (·.value)).sum := by
  have hstep : ∀ (s : Nat) (note : Note) (t : Nat),
      okOr (checkedAdd 64 s note.value) OutputsError.outputsOverflow = .ok t →
        t = s + note.value :=
    fun s note t h => (checkedAdd_eq_some.mp (okOr_ok.mp h)).1.symm
  simpa using foldlM_sum hstep h

theorem Inputs.mapM_noteOf_ok {ids : List NoteId} {notes : List Note}
    (h : ids.mapM (noteOf utxos) = .ok notes) : notes.map (·.value) = ids.map utxos.valueOf := by
  refine mapM_ok_map (fun n note hn => ?_) h
  obtain ⟨u, hu, rfl⟩ := Option.map_eq_some_iff.mp (okOr_ok.mp hn)
  simp only [Utxos.valueOf, hu, Option.map_some, Option.getD_some]

theorem map_value_mapIdx (opId : Hash) (notes : List Note) :
    (notes.mapIdx fun index note => Utxo.mk opId index note).map (·.note.value) =
      notes.map (·.value) := by
  apply List.ext_getElem <;> simp

/-- Spending takes the notes of the inputs out, each of which is there, and nothing else. -/
theorem Inputs.execute_ok {utxos' : Utxos} (h : i.execute utxos = .ok utxos') :
    (∀ n ∈ i.ids, ∃ u, utxos.get n = some u) ∧
      (∀ n, utxos'.get n = if n ∈ i.ids then none else utxos.get n) ∧
      utxos.value = utxos'.value + (i.ids.map utxos.valueOf).sum := by
  have hgo : ∀ (ids : List NoteId) (utxos : Utxos), ids.Nodup →
      ids.foldlM spend utxos = .ok utxos' → (∀ n ∈ ids, ∃ u, utxos.get n = some u) ∧
        (∀ n, utxos'.get n = if n ∈ ids then none else utxos.get n) ∧
        utxos.value = utxos'.value + (ids.map utxos.valueOf).sum := by
    intro ids
    induction ids with
    | nil => intro utxos _ h; cases foldlM_nil_ok h; simp
    | cons id ids ih =>
      intro utxos hnd h
      obtain ⟨next, h1, h2⟩ := foldlM_cons_ok h
      obtain ⟨⟨_, u⟩, h3, h4⟩ := bind_ok h1
      cases h4
      have hr := okOr_ok.mp h3
      obtain ⟨hid, hget⟩ := FlatTree.remove_eq_some hr
      obtain ⟨i1, i2, i3⟩ := ih next (List.nodup_cons.mp hnd).2 h2
      -- The other inputs have the same value before and after this one is spent.
      have hval : ids.map next.valueOf = ids.map utxos.valueOf := by
        grind [List.map_congr_left, Utxos.valueOf]
      grind [FlatTree.total_remove, Utxos.valueOf, Utxos.value]
  exact hgo i.ids utxos i.nodup h

/-- Whether a note is there, as a number. -/
def Utxos.held (utxos : Utxos) (n : NoteId) : Nat := if (utxos.get n).isSome then 1 else 0

theorem Inputs.execute_held {rest : Utxos} (h : i.execute utxos = .ok rest) (n : NoteId) :
    i.ids.count n + rest.held n ≤ utxos.held n := by
  obtain ⟨hthere, hget, -⟩ := execute_ok h
  unfold Utxos.held
  rw [hget]
  by_cases hn : n ∈ i.ids
  · obtain ⟨u, hu⟩ := hthere n hn
    simp [hn, hu, List.count_eq_one_of_mem i.nodup hn]
  · simp [hn, List.count_eq_zero_of_not_mem hn]

variable [Primitives] {new : List Utxo}

/-- New notes with ids of their own. -/
def Utxos.Fresh (utxos : Utxos) (new : List Utxo) : Prop :=
  (new.map Utxo.id).Nodup ∧ ∀ u ∈ new, utxos.get u.id = none

instance (utxos : Utxos) (new : List Utxo) : Decidable (utxos.Fresh new) :=
  inferInstanceAs (Decidable (_ ∧ _))

/-- Adding fresh notes changes nothing about the others. -/
theorem Utxos.insertAll_spec (hf : utxos.Fresh new) :
    (∀ u ∈ new, (utxos.insertAll new).get u.id = some u) ∧
      (∀ n, n ∉ new.map Utxo.id → (utxos.insertAll new).get n = utxos.get n) ∧
      (utxos.insertAll new).value = utxos.value + (new.map (·.note.value)).sum := by
  induction new generalizing utxos with
  | nil => simp [insertAll]
  | cons u new ih =>
    obtain ⟨hnd, habs⟩ := hf
    rw [List.map_cons, List.nodup_cons] at hnd
    have hne : ∀ v ∈ new, v.id ≠ u.id := fun v hv he => hnd.1 (he ▸ List.mem_map_of_mem hv)
    have hf' : Fresh (utxos.insert u.id u) new := ⟨hnd.2, fun v hv => by
      grind [FlatTree.get_insert]⟩
    grind [insertAll, FlatTree.get_insert, value, FlatTree.total_insert]

theorem Utxos.held_insertAll_le (utxos : Utxos) (new : List Utxo) (n : NoteId) :
    (utxos.insertAll new).held n ≤ utxos.held n + (new.map Utxo.id).count n := by
  induction new generalizing utxos with
  | nil => exact le_rfl
  | cons u new ih =>
    have hrest := ih (utxos.insert u.id u)
    have hone : held (utxos.insert u.id u) n ≤ utxos.held n + if u.id = n then 1 else 0 := by
      grind [held, FlatTree.get_insert]
    simp only [List.map_cons, List.count_cons, beq_iff_eq]
    exact hrest.trans (by omega)

theorem Utxos.value_insertAll_le (utxos : Utxos) (new : List Utxo) :
    (utxos.insertAll new).value ≤ utxos.value + (new.map (·.note.value)).sum := by
  induction new generalizing utxos with
  | nil => exact le_rfl
  | cons u new ih =>
    have hrest := ih (utxos.insert u.id u)
    have hone : value (utxos.insert u.id u) ≤ u.note.value + utxos.value :=
      FlatTree.total_insert_le _ utxos u.id u
    rw [List.map_cons, List.sum_cons]
    exact hrest.trans (by omega)

/-- Notes are spent and made, and no other note changes. -/
structure Exchange (utxos utxos' : Utxos) (spent : List NoteId) (new : List Utxo) : Prop where
  present : ∀ n ∈ spent, ∃ u, utxos.get n = some u
  made : ∀ u ∈ new, utxos'.get u.id = some u
  other : ∀ n, n ∉ new.map Utxo.id → utxos'.get n = if n ∈ spent then none else utxos.get n
  value : utxos.value + (new.map (·.note.value)).sum =
    utxos'.value + (spent.map utxos.valueOf).sum

theorem Inputs.exchange {spent : Utxos} (h : i.execute utxos = .ok spent) (hf : utxos.Fresh new) :
    Exchange utxos (spent.insertAll new) i.ids new := by
  obtain ⟨h1, h2, h3⟩ := execute_ok h
  have hf' : spent.Fresh new := ⟨hf.1, fun u hu => by rw [h2, hf.2 u hu, ite_self]⟩
  obtain ⟨i1, i2, i3⟩ := Utxos.insertAll_spec hf'
  exact ⟨h1, i1, fun n hn => by rw [i2 n hn, h2], by omega⟩

theorem Utxos.exchange (hf : utxos.Fresh new) : Exchange utxos (utxos.insertAll new) [] new := by
  obtain ⟨h1, h2, h3⟩ := insertAll_spec hf
  exact ⟨by simp, h1, fun n hn => by simpa using h2 n hn, by simp [h3]⟩

theorem Exchange.refl (utxos : Utxos) : Exchange utxos utxos [] [] :=
  ⟨by simp, by simp, by simp, by simp⟩

theorem Exchange.get_of_not_spent {utxos' : Utxos} {spent : List NoteId}
    (h : Exchange utxos utxos' spent new) (hf : utxos.Fresh new) {n : NoteId} {u : Utxo}
    (hn : utxos.get n = some u) (hs : n ∉ spent) : utxos'.get n = some u := by
  have hnew : n ∉ new.map Utxo.id := by
    intro hm
    obtain ⟨v, hv, rfl⟩ := List.mem_map.mp hm
    rw [hf.2 v hv] at hn
    cases hn
  rw [h.other n hnew, if_neg hs, hn]

end Logos.Mantle
