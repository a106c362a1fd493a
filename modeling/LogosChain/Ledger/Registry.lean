import LogosChain.Ledger.Ownership
import LogosChain.Ledger.Steps
import LogosChain.Mantle.Registry

/-!
# The registry of the services (`ledger/src/mantle/sdp/mod.rs`)

`SdpLedger.Change` says once what a step other than a header does to the services,
`SdpLedger.Headed` what a header does. In every state that genesis leads to the declarations, the
index of the providers and the uses of the service notes agree (`SdpLedger.Consistent`).
-/

namespace Logos.Ledger

open Base Mantle LedgerState

theorem ServiceType.mem_all (t : ServiceType) : t ∈ ServiceType.all := by
  cases t
  decide

theorem ServiceType.nodup_all : ServiceType.all.Nodup := by decide

/-- The part of a service that its declarations change. -/
def ServiceState.registrations (service : ServiceState) (serviceNotes : ServiceNotes) :
    Registrations :=
  ⟨service.declarations, service.providerIndex, serviceNotes⟩

/-- Rewards of the same epochs. -/
structure Rewards.SameEpochs (r r' : Rewards) : Prop where
  current : r'.current = r.current
  target : r'.target.map (·.1) = r.target.map (·.1)

theorem Rewards.SameEpochs.refl (r : Rewards) : r.SameEpochs r := ⟨rfl, rfl⟩

theorem Rewards.addIncome_sameEpochs (r : Rewards) (income : Nat) :
    r.SameEpochs (r.addIncome income) := ⟨rfl, rfl⟩

variable {r : Rewards}

theorem Rewards.updateActive_sameEpochs [Primitives] {r' : Rewards} {p : ProviderId}
    {m : ActivityMetadata} (h : r.updateActive p m = .ok r') : r.SameEpochs r' := by
  unfold updateActive at h
  split at h
  · cases h
  · rename_i target tracker proof ht
    obtain ⟨⟨zkId, distance⟩, -, h1⟩ := bind_ok h
    obtain ⟨tracker', -, h2⟩ := bind_ok h1
    cases h2
    exact ⟨rfl, by rw [ht]; rfl⟩

/-- The epochs of the rewards are closed one after the other. -/
theorem Rewards.updateEpoch_noPanic [Primitives] {ε : Type} {ps : List Panic}
    {last next : EpochState} {lastParams params : RewardsParameters}
    (hclock : .rewardsEpoch ∈ ps → last.epoch = r.current.epoch ∧ last.epoch < next.epoch)
    (htoken : .tokenEvaluation ∉ ps) :
    NoPanic ps (r.updateEpoch last next lastParams params : Result ε _) := by
  refine .bind ?_ fun _ _ => .ok _
  refine .bind (Avoids.failIf fun h hp => h (hclock hp).1) fun _ _ => ?_
  refine .bind (Avoids.failIf fun h hp => h.not_gt (hclock hp).2) fun _ _ => ?_
  split
  · exact .ok _
  dsimp only
  split
  · exact .ok _
  · exact .bind (NoPanic.expect htoken) fun _ _ => .ok _

/-- After a message a declaration is active in the epoch, or withdrawn. -/
inductive Declaration.Told (epoch : Nat) (nonce : Nonce) (d : Declaration) : Declaration → Prop where
  | active : Told epoch nonce d { d with active := epoch, nonce := nonce }
  | withdrawn (h : d.withdrawAt = none) : Told epoch nonce d
      { d with withdrawAt := some (epoch + snapshotFinalizationDelay), nonce := nonce }

namespace SdpLedger

variable [Primitives] {s s' : SdpLedger} {config : SdpConfig} {service : ServiceState}
  {d : Declaration} {proof : ZkSignature} {txHash : TxHash} {p : ZkSignature × ZkSignInputs}

/-- What a step does to the services, with the message it accepts. -/
inductive Change : SdpLedger → Option (DeclarationId × Nonce) → SdpLedger → Prop where
  | same (s : SdpLedger) : Change s none s
  | income (s : SdpLedger) (amount : Nat) : Change s none (s.addBlendIncome amount)
  | declare {s : SdpLedger} {op : SDPDeclareOp} {service : ServiceState} {note : Note}
      {channels : Channels} {minStake minStake' : MinStake} {utxos : Utxos} {r : Registrations}
      (hs : s.services.lookup op.serviceType = some service)
      (hv : op.validate note channels service.declarations service.providerIndex s.serviceNotes
        minStake = .ok ())
      (hx : op.execute (service.registrations s.serviceNotes) utxos s.epoch minStake' = .ok r) :
      Change s none { s with
        serviceNotes := r.serviceNotes
        services := s.services.insert op.serviceType
          { service with declarations := r.declarations, providerIndex := r.providerIndex } }
  | message {s : SdpLedger} {t : ServiceType} {service : ServiceState} {id : DeclarationId}
      {nonce : Nonce} {d d' : Declaration} {rewards : Rewards}
      (hs : s.services.lookup t = some service) (hd : service.declarations.lookup id = some d)
      (hlifecycle : nonce.lifecycleEpoch = d.created)
      (hsequence : d.nonce.sequence < nonce.sequence) (hd' : Declaration.Told s.epoch nonce d d')
      (hr : service.rewards.SameEpochs rewards) :
      Change s (some (id, nonce)) { s with
        services := s.services.insert t
          { service with declarations := service.declarations.insert id d', rewards := rewards } }

/-! ## Every step but a header is one -/

theorem Change.of_declare {op : SDPDeclareOp} {note : Note} {channels : Channels} {utxos : Utxos}
    {minStake : MinStake} (hs : s.services.lookup op.serviceType = some service)
    (hv : op.validate note channels service.declarations service.providerIndex s.serviceNotes
      minStake = .ok ())
    (h : s.tryApplySdpDeclaration utxos op config = .ok s') : Change s none s' := by
  obtain ⟨service', h1, h2⟩ := bind_ok h
  obtain ⟨r, h3, h4⟩ := bind_ok h2
  rw [okOr_ok, hs] at h1
  cases h1
  cases h4
  exact .declare hs hv (wrap_ok.mp h3)

omit [Primitives] in
theorem findSome?_of_find? {α β : Type} {f : α → Option β} {a : α} {l : List α}
    (h : l.find? (fun a => (f a).isSome) = some a) : l.findSome? f = f a := by
  induction l with
  | nil => cases h
  | cons b l ih =>
    cases hb : f b with
    | some c =>
      rw [List.find?_cons_of_pos (by rw [hb]; rfl)] at h
      cases h
      rw [List.findSome?_cons_of_isSome (by rw [hb]; rfl)]
    | none =>
      rw [List.find?_cons_of_neg (by rw [hb]; exact Bool.false_ne_true)] at h
      rw [List.findSome?_cons_of_isNone (by rw [hb]; rfl)]
      exact ih h

omit [Primitives] in
/-- The declaration is found in its service. -/
theorem lookup_of_getService {id : DeclarationId} {t : ServiceType}
    (ht : s.getService id config = .ok t) (hs : s.services.lookup t = some service)
    (hd : s.getDeclaration id = some d) : service.declarations.lookup id = some d := by
  obtain ⟨t', h1, h2⟩ := bind_ok ht
  have hfound := findSome?_of_find? (okOr_ok.mp h1)
  rw [hs] at hfound
  exact hfound.symm.trans hd

omit [Primitives] in
theorem applyWithdrawnMsg_eq {op : SDPWithdrawOp} (hd : s.getDeclaration op.declarationId = some d)
    (h : s.applyWithdrawnMsg op config = .ok s') :
    ∃ t service, s.services.lookup t = some service ∧
      service.declarations.lookup op.declarationId = some d ∧
      s' = { s with services := s.services.insert t { service with
        declarations := service.declarations.insert op.declarationId { d with
          withdrawAt := some (s.epoch + snapshotFinalizationDelay), nonce := op.nonce } } } := by
  obtain ⟨t, h1, h2⟩ := bind_ok h
  obtain ⟨service, h3, h4⟩ := bind_ok h2
  obtain ⟨declarations, h5, h6⟩ := bind_ok h4
  cases h6
  have hs := okOr_ok.mp h3
  have hlookup := lookup_of_getService (lift_ok.mp h1) hs hd
  obtain ⟨d', h7, h8⟩ := bind_ok (wrap_ok.mp h5)
  rw [expect_ok, hlookup] at h7
  cases h7
  cases h8
  exact ⟨t, service, hs, hlookup, rfl⟩

theorem applyActiveMsg_eq {op : SDPActiveOp} (hd : s.getDeclaration op.declarationId = some d)
    (h : s.applyActiveMsg op config = .ok s') :
    ∃ t service rewards, s.services.lookup t = some service ∧
      service.declarations.lookup op.declarationId = some d ∧
      service.rewards.updateActive d.providerId op.metadata = .ok rewards ∧
      s' = { s with services := s.services.insert t { service with
        declarations := service.declarations.insert op.declarationId
          { d with active := s.epoch, nonce := op.nonce }
        rewards := rewards } } := by
  obtain ⟨t, h1, h2⟩ := bind_ok h
  obtain ⟨service, h3, h4⟩ := bind_ok h2
  obtain ⟨declarations, h5, h6⟩ := bind_ok h4
  obtain ⟨declaration, h7, h8⟩ := bind_ok h6
  obtain ⟨rewards, h9, h10⟩ := bind_ok h8
  cases h10
  have hs := okOr_ok.mp h3
  have hlookup := lookup_of_getService (lift_ok.mp h1) hs hd
  obtain ⟨d', h11, h12⟩ := bind_ok (wrap_ok.mp h5)
  rw [expect_ok, hlookup] at h11
  cases h11
  cases h12
  rw [expect_ok, Finmap.lookup_insert] at h7
  cases h7
  exact ⟨t, service, rewards, hs, hlookup, wrap_ok.mp h9, rfl⟩

theorem Change.of_active {op : SDPActiveOp} {epoch : Nat}
    (hd : s.getDeclaration op.declarationId = some d) (hv : op.verify proof d txHash epoch = .ok p)
    (h : s.applyActiveMsg op config = .ok s') :
    Change s (some (op.declarationId, op.nonce)) s' := by
  obtain ⟨t, service, rewards, hs, hlookup, hrewards, rfl⟩ := applyActiveMsg_eq hd h
  obtain ⟨hlifecycle, hsequence⟩ := SDPActiveOp.verify_nonce hv
  exact .message hs hlookup hlifecycle hsequence .active (Rewards.updateActive_sameEpochs hrewards)

theorem Change.of_withdraw {op : SDPWithdrawOp} {serviceNotes : ServiceNotes}
    (hd : s.getDeclaration op.declarationId = some d)
    (hv : op.verify proof d serviceNotes txHash = .ok p)
    (h : s.applyWithdrawnMsg op config = .ok s') :
    Change s (some (op.declarationId, op.nonce)) s' := by
  obtain ⟨t, service, hs, hlookup, rfl⟩ := applyWithdrawnMsg_eq hd h
  obtain ⟨hnew, hlifecycle, hsequence⟩ := SDPWithdrawOp.verify_nonce hv
  exact .message hs hlookup hlifecycle hsequence (.withdrawn hnew) (.refl _)

end SdpLedger

/-- The message about a declaration that a step accepts. -/
def Action.message? : Action → Option (DeclarationId × Nonce)
  | .operation (.sdpActive op _) => some (op.declarationId, op.nonce)
  | .operation (.sdpWithdraw op _) => some (op.declarationId, op.nonce)
  | _ => none

section

variable [Primitives] {eras : EraScheduledConfig} {s s' : LedgerState} {config : Config}

/-- What an accepted operation does to services and leaders. -/
structure OpFrame (s : LedgerState) (op : SignedOp) (s' : LedgerState) : Prop where
  sdp : SdpLedger.Change s.mantleLedger.sdp (Action.operation op).message? s'.mantleLedger.sdp
  leaders : s'.mantleLedger.leaders = { s.mantleLedger.leaders with
    nfs := s'.mantleLedger.leaders.nfs
    claimableRewards := s'.mantleLedger.leaders.claimableRewards }

theorem OpFrame.of_apply {op : SignedOp} {opIndex : Nat} {txHash : TxHash}
    {deferred : DeferredProofs} {balance balance' : Int} {events : List TxEvent}
    (hv : op.verify opIndex txHash (s.helper eras) = .ok deferred)
    (h : s.tryApplyOp op config txHash balance = .ok (s', balance', events)) : OpFrame s op s' := by
  cases tryApplyOp_ok h with
  | sdpDeclare _ hx =>
    obtain ⟨declarations, hv1, hv2⟩ := bind_ok hv
    obtain ⟨providerIndex, hv3, hv4⟩ := bind_ok hv2
    obtain ⟨_, hv5, -⟩ := bind_ok hv4
    obtain ⟨service, hs, hdecl⟩ := Option.map_eq_some_iff.mp (okOr_ok.mp hv1)
    obtain ⟨service', hs', hprov⟩ := Option.map_eq_some_iff.mp (okOr_ok.mp hv3)
    rw [hs] at hs'
    cases hs'
    cases hdecl
    cases hprov
    obtain ⟨u, -, hv6⟩ := bind_ok (lift_ok.mp hv5)
    obtain ⟨_, -, hv7⟩ := bind_ok hv6
    obtain ⟨_, hv8, -⟩ := bind_ok hv7
    exact ⟨.of_declare hs hv8 hx, rfl⟩
  | sdpActive _ hx =>
    obtain ⟨d, hv1, hv2⟩ := bind_ok hv
    obtain ⟨_, hv3, -⟩ := bind_ok hv2
    exact ⟨.of_active (okOr_ok.mp hv1) (lift_ok.mp hv3) hx, rfl⟩
  | sdpWithdraw _ hx =>
    obtain ⟨d, hv1, hv2⟩ := bind_ok hv
    obtain ⟨_, hv3, -⟩ := bind_ok hv2
    exact ⟨.of_withdraw (okOr_ok.mp hv1) (lift_ok.mp hv3) hx, rfl⟩
  | _ => exact ⟨.same _, rfl⟩

omit [Primitives] in
theorem LedgerState.settleBlock_sdp {g : GasAndFees} (h : s.settleBlock g config = .ok s') :
    ∃ income, s'.mantleLedger.sdp = s.mantleLedger.sdp.addBlendIncome income := by
  obtain ⟨pooled, consumed, leaderReward, blendReward, refill, rfl⟩ := settleBlock_ok h
  exact ⟨blendReward, rfl⟩

omit [Primitives] in
theorem LedgerState.recordBlock_sdp {numTxs claims : Nat}
    (h : s.recordBlock numTxs claims config = .ok s') :
    s'.mantleLedger.sdp = s.mantleLedger.sdp := by
  obtain ⟨_, -, h1⟩ := bind_ok h
  cases h1
  rfl

theorem Step.change {a : Action} (h : Step eras s a s') (ha : ∀ h, a ≠ .header h) :
    SdpLedger.Change s.mantleLedger.sdp a.message? s'.mantleLedger.sdp := by
  cases h with
  | header => exact absurd rfl (ha _)
  | seen => exact .same _
  | operation hv happly => exact (OpFrame.of_apply hv happly).sdp
  | settled hs =>
    obtain ⟨income, heq⟩ := settleBlock_sdp hs
    rw [heq]
    exact .income _ _
  | counted hr =>
    rw [recordBlock_sdp hr]
    exact .same _

/-! ## The invariant -/

namespace SdpLedger

/-- Every service is consistent, and every service note has a use. -/
structure Consistent (s : SdpLedger) : Prop where
  services : ∀ t service, s.services.lookup t = some service →
    (service.registrations s.serviceNotes).Consistent t
  uses : ∀ n t id, s.serviceNotes.user n t = some id → (s.services.lookup t).isSome
  used : s.serviceNotes.Used

variable {s s' : SdpLedger} {service : ServiceState} {t : ServiceType} {epoch : Nat}
  {channels : Channels} {utxos : Utxos} {op : SDPDeclareOp} {ps : List Panic}
  {lastConfig config : SdpConfig} {acc : SdpLedger × HeaderEffect} {remaining : List ServiceType}

/-- Other registrations of a service, if the other uses stay. -/
theorem Consistent.insert {serviceNotes : ServiceNotes} (h : s.Consistent)
    (hc : (service.registrations serviceNotes).Consistent t) (hu : serviceNotes.Used)
    (hothers : ∀ n t', t' ≠ t → serviceNotes.user n t' = s.serviceNotes.user n t') :
    SdpLedger.Consistent ⟨s.services.insert t service, serviceNotes, epoch⟩ where
  services := by
    intro t' service' hs
    rcases Map.lookup_insert_some.mp hs with ⟨rfl, rfl⟩ | ⟨hne, hs⟩
    · exact hc
    · exact (h.services t' service' hs).of_notes fun n => hothers n t' hne
  uses := by simp_all
  used := hu

/-! ## Operations keep it -/

theorem Consistent.addBlendIncome (h : s.Consistent) (income : Nat) :
    (s.addBlendIncome income).Consistent := by
  unfold SdpLedger.addBlendIncome
  split
  · exact h
  · rename_i service hs
    exact h.insert (h.services _ service hs) h.used fun _ _ _ => rfl

theorem Consistent.declare {note : Note} {minStake minStake' : MinStake} {r : Registrations}
    (h : s.Consistent) (hs : s.services.lookup op.serviceType = some service)
    (hv : op.validate note channels service.declarations service.providerIndex s.serviceNotes
      minStake = .ok ())
    (hx : op.execute (service.registrations s.serviceNotes) utxos s.epoch minStake' = .ok r) :
    SdpLedger.Consistent { s with
      serviceNotes := r.serviceNotes
      services := s.services.insert op.serviceType
        { service with declarations := r.declarations, providerIndex := r.providerIndex } } := by
  obtain ⟨_, hlock, -⟩ := SDPDeclareOp.execute_eq hx
  refine h.insert ?_ (h.used.lock hlock) fun n t ht => ?_
  · exact SDPDeclareOp.consistent_execute (h.services _ service hs) hv hx
  · grind

theorem Consistent.message {id : DeclarationId} {nonce : Nonce} {d d' : Declaration}
    {rewards : Rewards} (h : s.Consistent) (hs : s.services.lookup t = some service)
    (hd : service.declarations.lookup id = some d) (hd' : Declaration.Told epoch nonce d d') :
    SdpLedger.Consistent { s with
      services := s.services.insert t
        { service with declarations := service.declarations.insert id d', rewards := rewards } } := by
  have hservice := h.services t service hs
  refine h.insert ?_ h.used fun _ _ _ => rfl
  cases hd' with
  | active => exact hservice.update hd rfl rfl rfl rfl
  | withdrawn => exact hservice.update hd rfl rfl rfl rfl

/-! ## Headers keep it -/

/-- A service in the next epoch, without the withdrawn declarations. -/
structure Advanced (last next : EpochState) (lastParams params : RewardsParameters)
    (service service' : ServiceState) : Prop where
  rewards : if last.epoch < next.epoch then ∃ notes, service.rewards.updateEpoch (ε := SdpLedgerError)
      last next lastParams params = .ok (service'.rewards, notes)
    else service'.rewards = service.rewards
  declarations : ∀ id d, service'.declarations.lookup id = some d ↔
    service.declarations.lookup id = some d ∧
      (last.epoch < next.epoch → d.withdrawnBefore next.epoch = false)

variable {last next : EpochState} {lastParams params : RewardsParameters} {t : ServiceType}
  {service service' : ServiceState} {serviceNotes serviceNotes' : ServiceNotes}
  {effect : HeaderEffect}

/-- Withdrawn declarations can be removed. -/
theorem applyHeaderToService_noPanic {ε : Type}
    (hc : (service.registrations serviceNotes).Consistent t) (hu : serviceNotes.Used)
    (hclock : .rewardsEpoch ∈ ps → last.epoch = service.rewards.current.epoch)
    (htoken : .tokenEvaluation ∉ ps) :
    NoPanic ps (applyHeaderToService service t serviceNotes last next lastParams params :
      Result ε _) := by
  unfold applyHeaderToService
  split
  · rename_i hlt
    refine .bind (Rewards.updateEpoch_noPanic (fun hp => ⟨hclock hp, hlt⟩) htoken) fun _ _ => ?_
    obtain ⟨p, hp, -⟩ := removeWithdrawnDeclarations_spec (ε := ε) hc hu next.epoch
    refine .bind (fun e he => ?_) fun _ _ => .ok _
    cases hp.symm.trans he
  · exact .ok _

theorem applyHeaderToService_ok (hc : (service.registrations serviceNotes).Consistent t)
    (hu : serviceNotes.Used)
    (h : applyHeaderToService (ε := SdpLedgerError) service t serviceNotes last next lastParams
      params = .ok (service', serviceNotes', effect)) :
    (service'.registrations serviceNotes').Consistent t ∧ serviceNotes'.Used ∧
      (∀ n t', t' ≠ t → serviceNotes'.user n t' = serviceNotes.user n t') ∧
      Advanced last next lastParams params service service' ∧
      serviceNotes.Releases serviceNotes' effect.events := by
  unfold applyHeaderToService at h
  split at h
  · rename_i hlt
    obtain ⟨⟨rewards, notes⟩, h1, h2⟩ := bind_ok h
    obtain ⟨⟨r, events⟩, h3, h4⟩ := bind_ok h2
    cases h4
    obtain ⟨q, hq, hremoved⟩ := removeWithdrawnDeclarations_spec (ε := SdpLedgerError) hc hu
      next.epoch
    cases h3.symm.trans hq
    refine ⟨hremoved.consistent, hremoved.used, hremoved.others, ⟨?_, fun id d => ?_⟩,
      .trans (.of_none fun n t' id => ?_) hremoved.releases⟩
    · rw [if_pos hlt]
      exact ⟨notes, h1⟩
    · show r.declarations.lookup id = some d ↔ _
      rw [hremoved.declarations]
      simp [hlt, ServiceState.registrations]
    · simp
  · rename_i hle
    cases h
    exact ⟨hc, hu, fun _ _ _ => rfl, ⟨by rw [if_neg hle], fun id d => by simp [hle]⟩, .refl _⟩

/-- A header on its way over the services. -/
structure Heading (last next : EpochState) (lastConfig config : SdpConfig) (s : SdpLedger)
    (acc : SdpLedger × HeaderEffect) (remaining : List ServiceType) : Prop where
  consistent : acc.1.Consistent
  nodup : remaining.Nodup
  epoch : acc.1.epoch = s.epoch
  releases : s.serviceNotes.Releases acc.1.serviceNotes acc.2.events
  kept : ∀ t, (s.services.lookup t).isSome → (acc.1.services.lookup t).isSome
  services : ∀ t service', acc.1.services.lookup t = some service' →
    ∃ service, s.services.lookup t = some service ∧ (t ∈ remaining → service' = service) ∧
      (t ∉ remaining → Advanced last next lastConfig.blendRewardsParams config.blendRewardsParams
        service service')

theorem Heading.start (h : s.Consistent) :
    Heading last next lastConfig config s (s, ⟨[], []⟩) ServiceType.all where
  consistent := h
  nodup := ServiceType.nodup_all
  epoch := rfl
  releases := .refl _
  kept := fun _ h => h
  services := fun t service hs =>
    ⟨service, hs, fun _ => rfl, fun hnot => absurd (ServiceType.mem_all t) hnot⟩

theorem Heading.step {acc' : SdpLedger × HeaderEffect}
    (h : Heading last next lastConfig config s acc (t :: remaining))
    (hstep : applyHeaderStep last next lastConfig config acc t = .ok acc') :
    Heading last next lastConfig config s acc' remaining := by
  obtain ⟨hnot, hnodup⟩ := List.nodup_cons.mp h.nodup
  unfold applyHeaderStep at hstep
  split at hstep
  · rename_i hnone
    cases hstep
    refine ⟨h.consistent, hnodup, h.epoch, h.releases, h.kept, fun t' service' hs' => ?_⟩
    grind
  · rename_i service hs
    obtain ⟨_, -, h1⟩ := bind_ok hstep
    obtain ⟨⟨service', serviceNotes', effect⟩, h2, h3⟩ := bind_ok h1
    cases h3
    obtain ⟨hc, hu, hothers, hadvanced, hreleases⟩ :=
      applyHeaderToService_ok (h.consistent.services t service hs) h.consistent.used h2
    obtain ⟨service0, hs0, hsame, -⟩ := h.services t service hs
    cases hsame List.mem_cons_self
    refine ⟨h.consistent.insert hc hu hothers, hnodup, h.epoch, h.releases.trans hreleases,
      fun t' ht' => ?_, fun t' service'' hs'' => ?_⟩
    · grind [Map.lookup_insert_ite]
    · grind [Map.lookup_insert_some]

theorem Heading.noPanic (h : Heading last next lastConfig config s acc (t :: remaining))
    (hclock : .rewardsEpoch ∈ ps → ∀ t service, s.services.lookup t = some service →
      last.epoch = service.rewards.current.epoch) (htoken : .tokenEvaluation ∉ ps) :
    NoPanic ps (applyHeaderStep last next lastConfig config acc t) := by
  unfold applyHeaderStep
  split
  · exact .ok _
  · rename_i service hs
    obtain ⟨service0, hs0, hsame, -⟩ := h.services t service hs
    cases hsame List.mem_cons_self
    refine .bind (NoPanic.okOr _ _) fun _ _ => ?_
    refine .bind (applyHeaderToService_noPanic (h.consistent.services t service hs)
      h.consistent.used (fun hp => hclock hp t service hs0) htoken) fun _ _ => .ok _

/-- What a header does to consistent services. -/
structure Headed (last next : EpochState) (lastConfig config : SdpConfig) (s s' : SdpLedger)
    (events : List HeaderEvent) : Prop where
  consistent : s'.Consistent
  epoch : s'.epoch = next.epoch
  releases : s.serviceNotes.Releases s'.serviceNotes events
  kept : ∀ t, (s.services.lookup t).isSome → (s'.services.lookup t).isSome
  services : ∀ t service', s'.services.lookup t = some service' →
    ∃ service, s.services.lookup t = some service ∧ Advanced last next
      lastConfig.blendRewardsParams config.blendRewardsParams service service'

theorem Consistent.header (h : s.Consistent)
    (hh : s.tryApplyHeader lastConfig config last next = .ok (s', effect)) :
    Headed last next lastConfig config s s' effect.events := by
  obtain ⟨⟨s1, effect'⟩, h1, h2⟩ := bind_ok hh
  cases h2
  have hend := foldlM_remaining (I := Heading last next lastConfig config s) h1 (.start h)
    fun _ _ _ _ hI hstep => hI.step hstep
  refine ⟨⟨hend.consistent.services, hend.consistent.uses, hend.consistent.used⟩, rfl,
    hend.releases, hend.kept, fun t service' hs' => ?_⟩
  obtain ⟨service, hs, -, hdone⟩ := hend.services t service' hs'
  exact ⟨service, hs, hdone List.not_mem_nil⟩

theorem Consistent.header_noPanic (h : s.Consistent)
    (hclock : .rewardsEpoch ∈ ps → ∀ t service, s.services.lookup t = some service →
      last.epoch = service.rewards.current.epoch) (htoken : .tokenEvaluation ∉ ps) :
    NoPanic ps (s.tryApplyHeader lastConfig config last next) := by
  refine .bind ?_ fun _ _ => .ok _
  refine .foldlM (I := Heading last next lastConfig config s) (.start h)
    (fun _ _ _ _ hI hstep => hI.step hstep) fun _ _ _ hI => hI.noPanic hclock htoken

theorem Change.consistent {m : Option (DeclarationId × Nonce)} (hs : Change s m s')
    (h : s.Consistent) : s'.Consistent := by
  cases hs with
  | same => exact h
  | income => exact h.addBlendIncome _
  | declare hs hv hx => exact h.declare hs hv hx
  | message hs hd _ _ hd' _ => exact h.message hs hd hd'

/-! ## Genesis -/

theorem consistent_withBlendService (epoch : Nat) (settings : RewardsParameters)
    (epochState : EpochState) : ((new epoch).withBlendService settings epochState).Consistent := by
  have hempty : (new epoch).Consistent := ⟨by simp [new], by simp [new, ServiceNotes.user], .empty⟩
  exact hempty.insert (.empty fun _ => by simp [new, ServiceNotes.user]) .empty fun _ _ _ => rfl

variable {config : SdpConfig}

/-- A declaration of the genesis transaction is a change. -/
theorem Change.of_genesis
    (h : applyGenesisDeclaration config utxos channels s op = .ok s') : Change s none s' := by
  obtain ⟨service, h1, h2⟩ := bind_ok h
  obtain ⟨_, h3, h4⟩ := bind_ok h2
  obtain ⟨_, -, h5⟩ := bind_ok (lift_ok.mp h3)
  exact .of_declare (okOr_ok.mp h1) h5 h4

/-- What holds without a declaration and is kept by every change holds after genesis. -/
theorem fromGenesis_invariant {I : SdpLedger → Prop} {epochState : EpochState}
    {declarations : List SDPDeclareOp}
    (h : fromGenesis config utxos channels epochState declarations = .ok s)
    (h0 : I ((new epochState.epoch).withBlendService config.blendRewardsParams epochState))
    (hstep : ∀ s s', I s → Change s none s' → I s') : I s :=
  foldlM_invariant h h0 fun _ _ s s' hI hop => hstep s s' hI (.of_genesis hop)

end SdpLedger

theorem LedgerState.fromGenesisTx_ok {tx : GenesisTx} {config : Config} {g : LedgerState}
    (h : fromGenesisTx tx config = .ok g) :
    ∃ l, CryptarchiaLedger.fromGenesisTx tx.transfer config tx.consensusExcludedKeys
        tx.epochNonce = .ok l ∧
      SdpLedger.fromGenesis config.sdpConfig l.utxos (tx.inscription.execute .new 0) l.epochState
        tx.declarations = .ok g.mantleLedger.sdp ∧
      g = ⟨0, l.withGenesisSdp g.mantleLedger.sdp config,
        ⟨tx.inscription.execute .new 0, g.mantleLedger.sdp, .new,
          .fromRewardPoolAndConfig tx.powRewardPool config⟩⟩ := by
  obtain ⟨l, h1, h2⟩ := bind_ok h
  obtain ⟨sdp, h3, h4⟩ := bind_ok h2
  cases h4
  exact ⟨l, lift_ok.mp h1, wrap_ok.mp h3, rfl⟩

/-! ## Every reachable state -/

namespace LedgerState

/-- Some declaration uses a note. -/
def Serves (s : LedgerState) (n : NoteId) : Prop :=
  ∃ t service id d, s.mantleLedger.sdp.services.lookup t = some service ∧
    service.declarations.lookup id = some d ∧ d.serviceNoteId = n

theorem consistent_of_genesis {tx : GenesisTx} {config : Config} {g : LedgerState}
    (h : fromGenesisTx tx config = .ok g) : g.mantleLedger.sdp.Consistent := by
  obtain ⟨l, -, h1, -⟩ := fromGenesisTx_ok h
  exact SdpLedger.fromGenesis_invariant h1 (SdpLedger.consistent_withBlendService _ _ _)
    fun _ _ hc hstep => hstep.consistent hc

variable {tx : GenesisTx} {config : Config} {g s s' : LedgerState} {ls : List Action}

theorem headed {h : Header} {events : List HeaderEvent} (hc : s.mantleLedger.sdp.Consistent)
    (hh : s.tryApplyHeader h eras = .ok (s', events)) :
    ∃ lastConfig config, SdpLedger.Headed s.cryptarchiaLedger.epochState
      s'.cryptarchiaLedger.epochState lastConfig config s.mantleLedger.sdp s'.mantleLedger.sdp
      events := by
  obtain ⟨l, effect, hp, rfl⟩ := tryApplyHeader_ok hh
  rw [hp.ledger]
  exact ⟨_, _, hc.header hp.sdp⟩

theorem consistent_of_step {a : Action} (h : Step eras s a s') (hc : s.mantleLedger.sdp.Consistent) :
    s'.mantleLedger.sdp.Consistent := by
  rcases h.header_or with ⟨header, events, rfl, hh⟩ | ha
  · obtain ⟨_, _, hheaded⟩ := headed hc hh
    exact hheaded.consistent
  · exact (h.change ha).consistent hc

theorem consistent_of_run (hg : fromGenesisTx tx config = .ok g)
    (hr : Run (Step eras) g ls s) : s.mantleLedger.sdp.Consistent :=
  hr.invariant (I := fun s => s.mantleLedger.sdp.Consistent) (consistent_of_genesis hg)
    fun _ _ _ hc hstep => consistent_of_step hstep hc

/-- A note serves exactly while a declaration uses it. -/
theorem contains_iff_serves (h : s.mantleLedger.sdp.Consistent) (n : NoteId) :
    s.serviceNotes.contains n = true ↔ s.Serves n := by
  rw [serviceNotes, h.used.contains_iff]
  constructor
  · rintro ⟨t, id, hn⟩
    obtain ⟨service, hs⟩ := Option.isSome_iff_exists.mp (h.uses n t id hn)
    obtain ⟨d, hd, hkey⟩ := ((h.services t service hs).notes n id).mp hn
    exact ⟨t, service, id, d, hs, hd, hkey⟩
  · rintro ⟨t, service, id, d, hs, hd, rfl⟩
    exact ⟨t, id, (h.services t service hs).notes.of_lookup hd⟩

/-- **The registry is consistent.** A header never fails at the removal of withdrawn declarations,
and releases a note exactly when the last declaration that uses it is removed. -/
theorem registry_consistent (hg : fromGenesisTx tx config = .ok g) (hr : Run (Step eras) g ls s) :
    (∀ t service, s.mantleLedger.sdp.services.lookup t = some service →
      (∀ id d, service.declarations.lookup id = some d → d.id = id ∧ d.serviceType = t) ∧
      (∀ p id, service.providerIndex.lookup p = some id ↔
        ∃ d, service.declarations.lookup id = some d ∧ d.providerId = p) ∧
      (∀ id d, service.declarations.lookup id = some d →
        s.serviceNotes.user d.serviceNoteId t = some id)) ∧
    (∀ n t id, s.serviceNotes.user n t = some id →
      ∃ service d, s.mantleLedger.sdp.services.lookup t = some service ∧
        service.declarations.lookup id = some d ∧ d.serviceNoteId = n) ∧
    (∀ n, s.serviceNotes.contains n = true ↔ s.Serves n) ∧
    (∀ h, s.tryApplyHeader h eras ≠ .error (.panic .withdrawnBinding)) ∧
    (∀ h s' events, s.tryApplyHeader h eras = .ok (s', events) → ∀ n,
      (∃ t id, .sdpNoteUnlocked n t id ∈ events) ↔ s.Serves n ∧ ¬ s'.Serves n) := by
  have hc := consistent_of_run hg hr
  refine ⟨fun t service hs => ?_, fun n t id hn => ?_, contains_iff_serves hc, fun h => ?_,
    fun h s' events hh n => ?_⟩
  · have hservice := hc.services t service hs
    exact ⟨hservice.stored, hservice.providers, fun id d hd => hservice.notes.of_lookup hd⟩
  · obtain ⟨service, hs⟩ := Option.isSome_iff_exists.mp (hc.uses n t id hn)
    obtain ⟨d, hd, hkey⟩ := ((hc.services t service hs).notes n id).mp hn
    exact ⟨service, d, hs, hd, hkey⟩
  · have hheader : NoPanic [.withdrawnBinding] (s.tryApplyHeader h eras) :=
      tryApplyHeader_noPanic (by simp) (by simp)
        (fun _ _ _ => hc.header_noPanic (by simp) (by simp)) (by simp)
    exact hheader.ne List.mem_cons_self
  · obtain ⟨_, _, hheaded⟩ := headed hc hh
    rw [hheaded.releases.events n, ← contains_iff_serves hc, ← contains_iff_serves hheaded.consistent,
      Bool.not_eq_true]
    rfl

end LedgerState

end

def withdrawTx : SignedOps :=
  ⟨0, [.sdpWithdraw ⟨9, ⟨0, 1⟩⟩ 0, .transfer ⟨.single 9002, .empty⟩ 0]⟩

def headerAt (slot : Nat) : Header := ⟨slot, ⟨0, 0, 0, 0⟩, []⟩

/-- Before and after the header that removes the declaration. -/
def withdrawnAndRemoved [Primitives] :
    Result LedgerError (LedgerState × LedgerState × LedgerState × List HeaderEvent) := do
  let g ← fromGenesisTx genesisWithService .small
  let s ← g.applyBlocks (.single .small) [⟨1, headerAt 1, [withdrawTx]⟩]
  let (s', events) ← s.tryApplyHeader (headerAt 35) (.single .small)
  return (g, s, s', events)

theorem registry_consistent_withdrawn :
    letI := Primitives.plain
    ∃ g ls s s' events, fromGenesisTx genesisWithService .small = .ok g ∧
      Run (Step (.single .small)) g ls s ∧
      s.tryApplyHeader (headerAt 35) (.single .small) = .ok (s', events) ∧
      s.Serves 9000 ∧ ¬ s'.Serves 9000 := by
  let _ := Primitives.plain
  obtain ⟨⟨g, s, s', events⟩, h, he⟩ := exists_ok (x := withdrawnAndRemoved)
    (fun r => .sdpNoteUnlocked 9000 .blendNetwork 9 ∈ r.2.2.2) (by decide +kernel)
  obtain ⟨_, h1, h2⟩ := bind_ok h
  obtain ⟨_, h3, h4⟩ := bind_ok h2
  obtain ⟨⟨_, _⟩, h5, h6⟩ := bind_ok h4
  cases h6
  have hrun := applyBlocks_run h3
  obtain ⟨-, -, -, -, hreleased⟩ := registry_consistent h1 hrun
  exact ⟨g, _, s, s', events, h1, hrun, h5, (hreleased _ s' events h5 9000).mp ⟨_, _, he⟩⟩

end Logos.Ledger
