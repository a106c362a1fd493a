import LogosChain.Ledger.Rewards

/-!
# The ledger of the services (`ledger/src/mantle/sdp/mod.rs`)
-/

namespace Logos.Ledger

open Base Mantle

/-- Why a message to a service is refused. -/
inductive SdpLedgerError where
  | declarationNotFound (declarationId : DeclarationId)
  | serviceNotFound (serviceType : ServiceType)
  | epochParamsNotFound (serviceType : ServiceType)
  | serviceParamsNotFound (serviceType : ServiceType)
  | rewardsError (e : RewardsError)
  | sdpOp (e : SdpError)
deriving DecidableEq, Repr

/-- The declarations of a service and its rewards. -/
structure ServiceState where
  declarations : Declarations
  providerIndex : ProviderIndex
  rewards : Rewards
deriving DecidableEq

/-- The services and their notes. -/
structure SdpLedger where
  services : Map ServiceType ServiceState
  serviceNotes : ServiceNotes
  epoch : Nat
deriving DecidableEq

/-- The services, in the order of the ledger. -/
def ServiceType.all : List ServiceType := [.blendNetwork]

/-- Active not too long before the epoch, and not withdrawn. -/
def isActive (d : Declaration) (currentEpoch : Nat) (params : ServiceParameters) : Bool :=
  decide (currentEpoch ≤ d.active + params.inactivityPeriod) &&
    match d.withdrawAt with
    | none => true
    | some withdrawAt => decide (currentEpoch < withdrawAt)

/-- What a header changes besides the services (`HeaderEffect`). -/
structure HeaderEffect where
  rewardUtxos : List Utxo
  events : List HeaderEvent
deriving DecidableEq, Repr

namespace SdpLedger

def new (epoch : Nat) : SdpLedger := ⟨∅, ∅, epoch⟩

/-- The declarations that count at an epoch, by service. -/
def activeDeclarations (s : SdpLedger) (epoch : Nat) (params : Map ServiceType ServiceParameters) :
    ServiceDeclarations :=
  ServiceType.all.foldl (fun active t =>
    match s.services.lookup t, params.lookup t with
    | some service, some p =>
      let entries := Map.filter (fun _ d => isActive d epoch p) service.declarations
      if entries = ∅ then active else active.insert t entries
    | _, _ => active) ∅

/-- The declaration with an id, in any of the services. -/
def getDeclaration (s : SdpLedger) (id : DeclarationId) : Option Declaration :=
  ServiceType.all.findSome? fun t => (s.services.lookup t).bind (·.declarations.lookup id)

def getDeclarationsByService (s : SdpLedger) (t : ServiceType) : Option Declarations :=
  (s.services.lookup t).map (·.declarations)

def getProviderIndexByService (s : SdpLedger) (t : ServiceType) : Option ProviderIndex :=
  (s.services.lookup t).map (·.providerIndex)

/-- The service of a declaration. -/
def getService (s : SdpLedger) (id : DeclarationId) (config : SdpConfig) :
    Except SdpLedgerError ServiceType := do
  let service ← okOr (ServiceType.all.find? fun t =>
    ((s.services.lookup t).bind (·.declarations.lookup id)).isSome) (.declarationNotFound id)
  let _ ← okOr (config.serviceParams.lookup service) (.serviceParamsNotFound service)
  return service

def addBlendIncome (s : SdpLedger) (income : Nat) : SdpLedger :=
  match s.services.lookup .blendNetwork with
  | none => s
  | some service =>
    let service := { service with rewards := service.rewards.addIncome income }
    { s with services := s.services.insert .blendNetwork service }

@[simp]
theorem serviceNotes_addBlendIncome (s : SdpLedger) (income : Nat) :
    (s.addBlendIncome income).serviceNotes = s.serviceNotes := by
  unfold addBlendIncome
  split <;> rfl

variable [Primitives]

/-- `with_blend_service`; the epoch is that of the ledger. -/
def withBlendService (s : SdpLedger) (settings : RewardsParameters) (epochState : EpochState) :
    SdpLedger :=
  let service := ⟨∅, ∅, .new settings epochState⟩
  { s with services := s.services.insert .blendNetwork service }

/-- Pays the rewards, and removes the withdrawn declarations. -/
def applyHeaderToService {ε : Type} (service : ServiceState) (t : ServiceType)
    (serviceNotes : ServiceNotes) (last next : EpochState)
    (lastParams params : RewardsParameters) :
    Result ε (ServiceState × ServiceNotes × HeaderEffect) :=
  if last.epoch < next.epoch then do
    let (rewards, utxos) ← service.rewards.updateEpoch last next lastParams params
    let (r, events) ← removeWithdrawnDeclarations
      ⟨service.declarations, service.providerIndex, serviceNotes⟩ next.epoch
    return (⟨r.declarations, r.providerIndex, rewards⟩, r.serviceNotes,
      ⟨utxos, utxos.map (.sdpRewardDistributed t) ++ events⟩)
  else return (service, serviceNotes, ⟨[], []⟩)

/-- The next service of a header. -/
def applyHeaderStep (last next : EpochState) (lastConfig config : SdpConfig)
    (acc : SdpLedger × HeaderEffect) (t : ServiceType) :
    Result SdpLedgerError (SdpLedger × HeaderEffect) :=
  match acc.1.services.lookup t with
  | none => return acc
  | some service => do
    let _ ← okOr (config.serviceParams.lookup t) (.error (.epochParamsNotFound t))
    let (service, serviceNotes, effect) ← applyHeaderToService service t acc.1.serviceNotes last
      next lastConfig.blendRewardsParams config.blendRewardsParams
    return ({ acc.1 with services := acc.1.services.insert t service, serviceNotes },
      ⟨acc.2.rewardUtxos ++ effect.rewardUtxos, acc.2.events ++ effect.events⟩)

/-- All services enter the epoch of a header. -/
def tryApplyHeader (s : SdpLedger) (lastConfig config : SdpConfig) (last next : EpochState) :
    Result SdpLedgerError (SdpLedger × HeaderEffect) := do
  let (s, effect) ←
    ServiceType.all.foldlM (applyHeaderStep last next lastConfig config) (s, ⟨[], []⟩)
  return ({ s with epoch := next.epoch }, effect)

section

variable {s s' : SdpLedger} {lastConfig config : SdpConfig} {last next : EpochState}
  {effect : HeaderEffect} (h : s.tryApplyHeader lastConfig config last next = .ok (s', effect))

include h

/-- What each service keeps when it pays rewards and removes declarations holds after a header. -/
theorem tryApplyHeader_invariant {I : ServiceNotes → HeaderEffect → Prop}
    (hstart : I s.serviceNotes ⟨[], []⟩)
    (hstep : ∀ (service : ServiceState) t notes effect rewards utxos r events, I notes effect →
      service.rewards.updateEpoch (ε := SdpLedgerError) last next lastConfig.blendRewardsParams
        config.blendRewardsParams = .ok (rewards, utxos) →
      removeWithdrawnDeclarations (ε := SdpLedgerError)
        ⟨service.declarations, service.providerIndex, notes⟩ next.epoch = .ok (r, events) →
      I r.serviceNotes ⟨effect.rewardUtxos ++ utxos,
        effect.events ++ (utxos.map (.sdpRewardDistributed t) ++ events)⟩) :
    I s'.serviceNotes effect := by
  obtain ⟨⟨s1, _⟩, h1, h2⟩ := bind_ok h
  cases h2
  refine foldlM_invariant (I := fun acc : SdpLedger × HeaderEffect => I acc.1.serviceNotes acc.2) h1
    hstart fun t _ acc acc' hacc hservice => ?_
  unfold applyHeaderStep at hservice
  split at hservice
  · cases hservice
    exact hacc
  · obtain ⟨_, -, h3⟩ := bind_ok hservice
    obtain ⟨⟨service', serviceNotes, effect'⟩, h4, h5⟩ := bind_ok h3
    cases h5
    unfold applyHeaderToService at h4
    split at h4
    · obtain ⟨⟨rewards, utxos⟩, h6, h7⟩ := bind_ok h4
      obtain ⟨⟨r, events⟩, h8, h9⟩ := bind_ok h7
      cases h9
      exact hstep _ t _ _ _ _ _ _ hacc h6 h8
    · cases h4
      simpa using hacc

/-- A header releases service notes; no other note changes. -/
theorem tryApplyHeader_ok {n : NoteId} {e : ServiceNote} (hn : s'.serviceNotes.lookup n = some e) :
    ∃ e0, s.serviceNotes.lookup n = some e0 ∧ e0.note = e.note := by
  refine tryApplyHeader_invariant h (I := fun notes _ => ∀ n e, notes.lookup n = some e →
    ∃ e0, s.serviceNotes.lookup n = some e0 ∧ e0.note = e.note) (fun n e hn => ⟨e, hn, rfl⟩) ?_ n e hn
  grind [removeWithdrawnDeclarations_ok]

end

/-- Executes a declaration (`try_apply_sdp_declaration`). -/
def tryApplySdpDeclaration (s : SdpLedger) (utxos : Utxos) (op : SDPDeclareOp)
    (config : SdpConfig) : Result SdpLedgerError SdpLedger := do
  let service ← okOr (s.services.lookup op.serviceType) (.error (.serviceNotFound op.serviceType))
  let r ← wrap .sdpOp (op.execute ⟨service.declarations, service.providerIndex, s.serviceNotes⟩
    utxos s.epoch config.minStake)
  let service :=
    { service with declarations := r.declarations, providerIndex := r.providerIndex }
  return { s with
    serviceNotes := r.serviceNotes
    services := s.services.insert op.serviceType service }

/-- Records a report of activity. -/
def applyActiveMsg (s : SdpLedger) (op : SDPActiveOp) (config : SdpConfig) :
    Result SdpLedgerError SdpLedger := do
  let t ← lift id (s.getService op.declarationId config)
  let service ← okOr (s.services.lookup t) (.error (.serviceNotFound t))
  let declarations ← wrap .sdpOp (op.execute service.declarations s.epoch)
  let declaration ← expect (declarations.lookup op.declarationId) .declaration
  let rewards ← wrap .rewardsError
    (service.rewards.updateActive declaration.providerId op.metadata)
  let service := { service with declarations := declarations, rewards := rewards }
  return { s with services := s.services.insert t service }

/-- Records a withdrawal. -/
def applyWithdrawnMsg (s : SdpLedger) (op : SDPWithdrawOp) (config : SdpConfig) :
    Result SdpLedgerError SdpLedger := do
  let t ← lift id (s.getService op.declarationId config)
  let service ← okOr (s.services.lookup t) (.error (.serviceNotFound t))
  let declarations ← wrap .sdpOp (op.execute service.declarations s.epoch)
  return { s with services := s.services.insert t { service with declarations := declarations } }

/-- The next declaration of the genesis transaction. -/
def applyGenesisDeclaration (config : SdpConfig) (utxos : Utxos) (channels : Channels)
    (s : SdpLedger) (op : SDPDeclareOp) : Result SdpLedgerError SdpLedger := do
  let service ← okOr (s.services.lookup op.serviceType) (.error (.serviceNotFound op.serviceType))
  lift .sdpOp (op.verifyGenesis utxos channels s.serviceNotes service.declarations
    service.providerIndex config.minStake)
  s.tryApplySdpDeclaration utxos op config

/-- The ledger after the genesis declarations. -/
def fromGenesis (config : SdpConfig) (utxos : Utxos) (channels : Channels)
    (epochState : EpochState) (declarations : List SDPDeclareOp) :
    Result SdpLedgerError SdpLedger :=
  declarations.foldlM (applyGenesisDeclaration config utxos channels)
    ((new epochState.epoch).withBlendService config.blendRewardsParams epochState)

variable {s s' : SdpLedger} {config : SdpConfig}

/-- A declaration has one more use of its note, which is there. -/
theorem tryApplySdpDeclaration_ok {utxos : Utxos} {op : SDPDeclareOp}
    (h : s.tryApplySdpDeclaration utxos op config = .ok s') :
    ∃ u, utxos.get op.serviceNoteId = some u ∧ s.serviceNotes.lock config.minStake op.serviceType
      op.id u.note op.serviceNoteId = .ok s'.serviceNotes := by
  obtain ⟨_, -, h1⟩ := bind_ok h
  obtain ⟨r, h2, h3⟩ := bind_ok h1
  cases h3
  exact SDPDeclareOp.execute_ok (wrap_ok.mp h2)

theorem applyActiveMsg_ok {op : SDPActiveOp}
    (h : s.applyActiveMsg op config = .ok s') : s'.serviceNotes = s.serviceNotes := by
  obtain ⟨_, -, h1⟩ := bind_ok h
  obtain ⟨_, -, h2⟩ := bind_ok h1
  obtain ⟨_, -, h3⟩ := bind_ok h2
  obtain ⟨_, -, h4⟩ := bind_ok h3
  obtain ⟨_, -, h5⟩ := bind_ok h4
  cases h5
  rfl

omit [Primitives] in
theorem applyWithdrawnMsg_ok {op : SDPWithdrawOp}
    (h : s.applyWithdrawnMsg op config = .ok s') : s'.serviceNotes = s.serviceNotes := by
  obtain ⟨_, -, h1⟩ := bind_ok h
  obtain ⟨_, -, h2⟩ := bind_ok h1
  obtain ⟨_, -, h3⟩ := bind_ok h2
  cases h3
  rfl

end SdpLedger

end Logos.Ledger
