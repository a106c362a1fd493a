import LogosChain.Mantle.Primitives

/-!
# Declarations and service notes (`core/src/sdp`)

A provider of a service declares itself with a note as collateral. While a declaration uses the note
it is a service note. Declarations whose withdrawal has taken effect are removed at the start of an
epoch, and their notes released.
-/

namespace Logos.Mantle

open Base

/-- The epochs from a change to the snapshot that has it. -/
def snapshotFinalizationDelay : Nat := 2

/-- The least value of a service note. -/
structure MinStake where
  threshold : Nat
  timestamp : Nat
deriving DecidableEq, Repr

/-- A declaration and what has become of it. -/
structure Declaration where
  serviceType : ServiceType
  providerId : ProviderId
  serviceNoteId : NoteId
  locators : List Locator
  zkId : ZkPublicKey
  /-- The epoch of the block with the declaration. -/
  created : Nat
  /-- The last epoch with an active message. -/
  active : Nat
  withdrawAt : Option Nat
  nonce : Nonce
deriving DecidableEq, Repr

def Declaration.new (epoch : Nat) (op : SDPDeclareOp) : Declaration where
  serviceType := op.serviceType
  providerId := op.providerId
  serviceNoteId := op.serviceNoteId
  locators := op.locators
  zkId := op.zkId
  created := epoch
  active := epoch + snapshotFinalizationDelay
  withdrawAt := none
  nonce := ⟨epoch, 0⟩

def Declaration.id [Primitives] (d : Declaration) : DeclarationId :=
  Primitives.declarationId d.serviceType d.zkId

def SDPDeclareOp.id [Primitives] (op : SDPDeclareOp) : DeclarationId :=
  Primitives.declarationId op.serviceType op.zkId

/-- Whether the withdrawal has taken effect before an epoch. -/
def Declaration.withdrawnBefore (d : Declaration) (epoch : Nat) : Bool :=
  match d.withdrawAt with
  | none => false
  | some withdrawAt => decide (withdrawAt < epoch)

/-- The declarations of a service. -/
abbrev Declarations := Map DeclarationId Declaration

/-- The declaration of each provider of a service. -/
abbrev ProviderIndex := Map ProviderId DeclarationId

/-- Why a note cannot start or stop to serve. -/
inductive ServiceNotesError where
  | noteInsufficientValue (noteId : NoteId) (value : Nat)
  | noteAlreadyUsedForService (noteId : NoteId) (serviceType : ServiceType)
  | noteNotUsedForService (noteId : NoteId) (serviceType : ServiceType)
  | notAServiceNote (noteId : NoteId)
deriving DecidableEq, Repr

/-- A note with the declaration that uses it for each service. -/
structure ServiceNote where
  note : Note
  services : Map ServiceType DeclarationId
deriving DecidableEq

/-- The notes that serve. -/
abbrev ServiceNotes := Map NoteId ServiceNote

namespace ServiceNotes

def get (s : ServiceNotes) (noteId : NoteId) : Option Note := (s.lookup noteId).map (·.note)

def contains (s : ServiceNotes) (noteId : NoteId) : Bool := (s.lookup noteId).isSome

/-- The declaration that uses a note for a service. -/
def user (s : ServiceNotes) (noteId : NoteId) (serviceType : ServiceType) : Option DeclarationId :=
  (s.lookup noteId).bind (·.services.lookup serviceType)

def isUsedForService (s : ServiceNotes) (noteId : NoteId) (serviceType : ServiceType) : Bool :=
  (s.user noteId serviceType).isSome

def isUsedByDeclaration (s : ServiceNotes) (noteId : NoteId) (serviceType : ServiceType)
    (declarationId : DeclarationId) : Bool :=
  s.user noteId serviceType = some declarationId

/-- Has a declaration use a note. A note that already serves keeps its record. -/
def lock (s : ServiceNotes) (minStake : MinStake) (serviceType : ServiceType)
    (declarationId : DeclarationId) (note : Note) (noteId : NoteId) :
    Except ServiceNotesError ServiceNotes := do
  failIf (note.value < minStake.threshold) (.noteInsufficientValue noteId note.value)
  match s.lookup noteId with
  | some e =>
    failIf (e.services.lookup serviceType).isSome (.noteAlreadyUsedForService noteId serviceType)
    return s.insert noteId { e with services := e.services.insert serviceType declarationId }
  | none => return s.insert noteId ⟨note, (∅ : Map _ _).insert serviceType declarationId⟩

/-- Ends a use of a note, and without a use its service. -/
def unlock (s : ServiceNotes) (serviceType : ServiceType) (declarationId : DeclarationId)
    (noteId : NoteId) : Except ServiceNotesError (ServiceNotes × Note) :=
  match s.lookup noteId with
  | some e => do
    failIf (e.services.lookup serviceType ≠ some declarationId)
      (.noteNotUsedForService noteId serviceType)
    let services := e.services.erase serviceType
    if services = ∅ then return (s.erase noteId, e.note)
    else return (s.insert noteId { e with services := services }, e.note)
  | none => .error (.notAServiceNote noteId)

variable {s s' : ServiceNotes} {n k : NoteId} {t : ServiceType} {d : DeclarationId} {note : Note}
  {m : MinStake} {e : ServiceNote}

theorem contains_eq_false : s.contains n = false ↔ s.lookup n = none := by
  simp [contains]

theorem lock_ok (h : s.lock m t d note n = .ok s') :
    m.threshold ≤ note.value ∧ s.user n t = none ∧
      ∃ e : ServiceNote, e.services.lookup t = none ∧
        (s.lookup n = some e ∨ s.lookup n = none ∧ e = ⟨note, ∅⟩) ∧
        s' = s.insert n { e with services := e.services.insert t d } := by
  obtain ⟨_, h1, h2⟩ := bind_ok h
  rw [failIf_ok] at h1
  refine ⟨by omega, ?_⟩
  cases hn : s.lookup n with
  | none =>
    rw [hn] at h2
    cases h2
    exact ⟨by simp [user, hn], ⟨note, ∅⟩, rfl, .inr ⟨rfl, rfl⟩, rfl⟩
  | some e =>
    rw [hn] at h2
    obtain ⟨_, h3, h4⟩ := bind_ok h2
    cases h4
    have ht : e.services.lookup t = none := by simpa using h3
    exact ⟨by simp [user, hn, ht], e, ht, .inl rfl, rfl⟩

/-- A lock keeps every note and adds the given one. -/
theorem lookup_lock (h : s.lock m t d note n = .ok s') (hk : s'.lookup k = some e) :
    (∃ e0, s.lookup k = some e0 ∧ e0.note = e.note) ∨ (k = n ∧ e.note = note) := by
  obtain ⟨-, -, e1, -, h1, rfl⟩ := lock_ok h
  grind [Map.lookup_insert_some]

theorem unlock_ok (h : s.unlock t d n = .ok (s', note)) :
    ∃ e : ServiceNote, s.lookup n = some e ∧ e.services.lookup t = some d ∧ note = e.note ∧
      s' = if e.services.erase t = ∅ then s.erase n
        else s.insert n { e with services := e.services.erase t } := by
  unfold unlock at h
  cases hn : s.lookup n with
  | none => rw [hn] at h; cases h
  | some e =>
    rw [hn] at h
    obtain ⟨_, h1, h2⟩ := bind_ok h
    refine ⟨e, rfl, by simpa using h1, ?_⟩
    by_cases he : e.services.erase t = ∅
    · simp_all
    · rw [if_neg he] at h2; cases h2; exact ⟨rfl, by rw [if_neg he]⟩

/-- An unlock adds no service note and keeps the others. -/
theorem lookup_unlock (h : s.unlock t d n = .ok (s', note))
    (hk : s'.lookup k = some e) : ∃ e0, s.lookup k = some e0 ∧ e0.note = e.note := by
  grind [unlock_ok, Map.lookup_insert_some, Map.lookup_erase_some]

end ServiceNotes

/-- The declarations of a service, their providers, and the service notes. -/
structure Registrations where
  declarations : Declarations
  providerIndex : ProviderIndex
  serviceNotes : ServiceNotes
deriving DecidableEq

variable {ε : Type}

/-- Removes a declaration, its provider and its use of its note. -/
def removeDeclaration (r : Registrations × List HeaderEvent) (e : DeclarationId × Declaration) :
    Result ε (Registrations × List HeaderEvent) := do
  let (serviceNotes, _) ← expect
    (r.1.serviceNotes.unlock e.2.serviceType e.1 e.2.serviceNoteId).toOption .withdrawnBinding
  let events := if serviceNotes.contains e.2.serviceNoteId then [] else
    [HeaderEvent.sdpNoteUnlocked e.2.serviceNoteId e.2.serviceType e.1]
  return (⟨r.1.declarations.erase e.1, r.1.providerIndex.erase e.2.providerId, serviceNotes⟩,
    r.2 ++ events)

/-- `remove_withdrawn_declarations`, in the order of the ids. -/
def removeWithdrawnDeclarations (r : Registrations) (epoch : Nat) :
    Result ε (Registrations × List HeaderEvent) :=
  ((Map.toList r.declarations).filter (·.2.withdrawnBefore epoch)).foldlM removeDeclaration (r, [])

/-- The declarations that are removed release notes; no other note changes. -/
theorem removeWithdrawnDeclarations_ok {r r' : Registrations} {epoch : Nat}
    {events : List HeaderEvent}
    (h : (removeWithdrawnDeclarations r epoch : Result ε _) = .ok (r', events)) {n : NoteId}
    {e : ServiceNote} (hn : r'.serviceNotes.lookup n = some e) :
    ∃ e0, r.serviceNotes.lookup n = some e0 ∧ e0.note = e.note := by
  let I := fun p : Registrations × List HeaderEvent => ∀ n e, p.1.serviceNotes.lookup n = some e →
    ∃ e0, r.serviceNotes.lookup n = some e0 ∧ e0.note = e.note
  have hI : I (r', events) := by
    refine foldlM_invariant (I := I) h (fun n e hn => ⟨e, hn, rfl⟩) ?_
    intro d _ p p' hp hstep n e hn
    obtain ⟨⟨serviceNotes, note⟩, h1, h2⟩ := bind_ok hstep
    cases h2
    have hu := expect_ok.mp h1
    cases hunlock : p.1.serviceNotes.unlock d.2.serviceType d.1 d.2.serviceNoteId with
    | error e => rw [hunlock] at hu; cases hu
    | ok q =>
      rw [hunlock] at hu
      cases hu
      grind [ServiceNotes.lookup_unlock]
  exact hI n e hn

end Logos.Mantle
