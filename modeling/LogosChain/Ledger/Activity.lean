import LogosChain.Ledger.Lifecycle

/-!
# The membership of a declaration (`core/src/mantle/ops/sdp/active.rs`, `ledger/src/mantle/sdp`)

A declaration counts until some epochs after the epoch in its field `active`. The field starts two
epochs after the declaration was made, and a report of activity sets it to the epoch of the report.
No report comes before the end of the head start (`Membership`): a provider of the target epoch has
declared two epochs before. But genesis seeds the epochs 0 and 1: a report about epoch 0 sets the
field from 2 to 1.
-/

namespace Logos.Ledger

open Base Mantle LedgerState SdpLedger

/-- Made two epochs before (genesis aside), and not withdrawn. -/
structure Declaration.Enrolled (d : Declaration) (epoch : Nat) : Prop where
  created : d.created + snapshotFinalizationDelay ≤ epoch ∨ (d.created = 0 ∧ epoch ≤ 1)
  withdrawn : ∀ w, d.withdrawAt = some w → epoch < w

/-- A message leaves a declaration enrolled up to the next epoch. -/
theorem Declaration.Told.enrolled {epoch current : Nat} {nonce : Nonce} {d d' : Declaration}
    (h : Declaration.Told current nonce d d') (he : Declaration.Enrolled d epoch)
    (hle : epoch ≤ current + 1) : Declaration.Enrolled d' epoch := by
  cases h with
  | active => exact ⟨he.created, he.withdrawn⟩
  | withdrawn =>
    refine ⟨he.created, fun w hw => ?_⟩
    cases hw
    show epoch < current + 2
    omega

namespace SdpLedger

/-- The declaration of the provider is enrolled. -/
def Enrolled (s : SdpLedger) (epoch : Nat) (p : ProviderId) : Prop :=
  ∃ id d, s.Declared id d ∧ d.providerId = p ∧ Declaration.Enrolled d epoch

/-- All providers of a snapshot are enrolled. -/
def EnrolledIn (s : SdpLedger) (epoch : Nat) (m : ServiceDeclarations) : Prop :=
  ∀ t declarations, m.lookup t = some declarations → ∀ id d, declarations.lookup id = some d →
    s.Enrolled epoch d.providerId

variable {s s' : SdpLedger} {epoch : Nat} {p : ProviderId} {d : Declaration} {id : DeclarationId}
  {params : Map ServiceType ServiceParameters}

theorem declared_of_getDeclaration (h : s.getDeclaration id = some d) : s.Declared id d := by
  obtain ⟨t, -, hfound⟩ := List.exists_of_findSome?_eq_some h
  obtain ⟨service, hs, hd⟩ := Option.bind_eq_some_iff.mp hfound
  exact ⟨t, service, hs, hd⟩

theorem lookup_activeDeclarations {t : ServiceType} {declarations : Declarations}
    (ht : (s.activeDeclarations epoch params).lookup t = some declarations)
    (hd : declarations.lookup id = some d) : s.Declared id d ∧ ∃ p, isActive d epoch p = true := by
  unfold activeDeclarations ServiceType.all at ht
  rw [List.foldl_cons, List.foldl_nil] at ht
  split at ht
  · rename_i service p hs hp
    dsimp only at ht
    split at ht
    · simp at ht
    · rcases Map.lookup_insert_some.mp ht with ⟨-, rfl⟩ | ⟨-, ht⟩
      · obtain ⟨hin, hactive⟩ := Map.lookup_filter_some.mp hd
        exact ⟨⟨_, service, hs, hin⟩, p, hactive⟩
      · simp at ht
  · simp at ht

theorem withdrawn_of_isActive {params : ServiceParameters}
    (h : isActive d epoch params = true) : ∀ w, d.withdrawAt = some w → epoch < w := by
  intro w hw
  unfold isActive at h
  rw [hw, Bool.and_eq_true] at h
  exact of_decide_eq_true h.2

/-- A snapshot for an epoch late enough for all declarations. -/
theorem enrolledIn_activeDeclarations (hcreated : ∀ id d, s.Declared id d →
      d.created + snapshotFinalizationDelay ≤ epoch ∨ (d.created = 0 ∧ epoch ≤ 1)) :
    s.EnrolledIn epoch (s.activeDeclarations epoch params) := by
  intro t declarations ht id d hd
  obtain ⟨hdeclared, p, hactive⟩ := lookup_activeDeclarations ht hd
  exact ⟨id, d, hdeclared, rfl, hcreated id d hdeclared, withdrawn_of_isActive hactive⟩

section

variable [Primitives] {m : Option Message} {id : DeclarationId}

/-! ## What happens to a declaration -/

theorem Change.declared_of (hs : Change s m s') {d' : Declaration} (h : s'.Declared id d') :
    s.Declared id d' ∨ (∃ op, d' = .new s.epoch op) ∨
      ∃ nonce d, m = some (id, nonce) ∧ s.Declared id d ∧ Declaration.Told s.epoch nonce d d' := by
  cases hs with
  | same => exact .inl h
  | income amount => exact .inl ((declared_addBlendIncome s amount id d').mp h)
  | @declare op service _ _ _ _ _ r hs hv hx =>
    rcases (declared_insert hs (SDPDeclareOp.execute_declarations hx) id d').mp h with
      ⟨-, rfl⟩ | ⟨-, hold⟩
    · exact .inr (.inl ⟨op, rfl⟩)
    · exact .inl hold
  | message hs hd _ _ htold _ =>
    rcases (declared_insert hs rfl id d').mp h with ⟨rfl, rfl⟩ | ⟨-, hold⟩
    · exact .inr (.inr ⟨_, _, rfl, ⟨_, _, hs, hd⟩, htold⟩)
    · exact .inl hold

theorem Change.declared_kept (hs : Change s m s') {d : Declaration} (h : s.Declared id d) :
    s'.Declared id d ∨ ∃ nonce d', m = some (id, nonce) ∧ s'.Declared id d' ∧
      Declaration.Told s.epoch nonce d d' := by
  cases hs with
  | same => exact .inl h
  | income amount => exact .inl ((declared_addBlendIncome s amount id d).mpr h)
  | @declare op service _ _ _ _ _ r hs hv hx =>
    obtain ⟨hnone, -, -⟩ := SDPDeclareOp.validate_new (r := service.registrations s.serviceNotes) hv
    refine .inl ((declared_insert hs (SDPDeclareOp.execute_declarations hx) id d).mpr
      (.inr ⟨?_, h⟩))
    -- A declaration is made only under an id that has none.
    rintro rfl
    obtain ⟨t, service', hs', hd⟩ := h
    have ht : t = op.serviceType := by cases t; cases op.serviceType; rfl
    rw [ht, hs] at hs'
    cases hs'
    cases hnone.symm.trans hd
  | @message t service mid _ d0 _ _ hs hd _ _ htold _ =>
    by_cases hid : id = mid
    · subst hid
      have heq : d = d0 := Declared.unique h ⟨_, _, hs, hd⟩
      grind [declared_insert]
    · grind [declared_insert]

/-- A change leaves providers enrolled up to the next epoch. -/
theorem Change.enrolled (hs : Change s m s') (h : s.Enrolled epoch p)
    (hle : epoch ≤ s.epoch + 1) : s'.Enrolled epoch p := by
  obtain ⟨id, d, hd, hp, he⟩ := h
  rcases hs.declared_kept hd with hd' | ⟨nonce, d', -, hd', htold⟩
  · exact ⟨id, d, hd', hp, he⟩
  · have hp' : d'.providerId = d.providerId := by cases htold <;> rfl
    exact ⟨id, d', hd', hp'.trans hp, htold.enrolled he hle⟩

/-- A header leaves providers enrolled from the epoch before it on. -/
theorem Headed.enrolled {last next : EpochState} {lastConfig config : SdpConfig}
    {events : List HeaderEvent} (hh : Headed last next lastConfig config s s' events)
    (h : s.Enrolled epoch p) (hle : next.epoch ≤ epoch + 1) : s'.Enrolled epoch p := by
  obtain ⟨id, d, hd, hp, he⟩ := h
  rcases hh.declared_or hd with hd' | hw
  · exact ⟨id, d, hd', hp, he⟩
  · unfold Declaration.withdrawnBefore at hw
    split at hw
    · cases hw
    · rename_i w hwithdraw
      have hbefore : w < next.epoch := of_decide_eq_true hw
      have hafter := he.withdrawn w hwithdraw
      omega

end

end SdpLedger

/-! ## The providers of the target epoch -/

section

variable [Primitives]

theorem lookup_providersAndZkRoot {declarations : Declarations} {p : ProviderId}
    (h : ((providersAndZkRoot declarations).1.lookup p).isSome) :
    ∃ id d, declarations.lookup id = some d ∧ d.providerId = p := by
  let providers := ((Map.toList declarations).map fun e => (e.2.providerId, e.2.zkId)).insertionSort
    (·.2 ≤ ·.2)
  have hkeys : (providersAndZkRoot declarations).1.keys =
      ∅ ∪ (providers.zipIdx.map fun e => e.1.1).toFinset :=
    Map.keys_foldl_insert (fun e : (ProviderId × ZkPublicKey) × Nat => e.1.1)
      (fun e => (e.1.2, e.2)) _ _
  rw [Finmap.lookup_isSome, ← Finmap.mem_keys, hkeys, Finset.empty_union, List.mem_toFinset] at h
  obtain ⟨e, he, rfl⟩ := List.mem_map.mp h
  have hprovider : e.1 ∈ providers := by grind
  grind [List.mem_insertionSort, Map.mem_toList]

/-- The new target is the epoch that ends, with its providers. -/
theorem Rewards.newTarget_ok {ε : Type} {r : Rewards} {last next : EpochState}
    {settings : RewardsParameters} {target : TargetEpochState}
    (h : r.newTarget (ε := ε) last next settings = .ok (some target)) :
    target.epoch = last.epoch ∧ next.epoch = last.epoch + 1 ∧
      ∀ p, (target.providers.lookup p).isSome → ∃ t declarations id d,
        last.activeDeclarations.lookup t = some declarations ∧ declarations.lookup id = some d ∧
          d.providerId = p := by
  obtain ⟨_, -, h1⟩ := bind_ok h
  obtain ⟨_, hlt, h2⟩ := bind_ok h1
  rw [failIf_ok, not_le] at hlt
  split at h2
  · cases h2
  dsimp only at h2
  split at h2
  · cases h2
  obtain ⟨⟨coreQuota, evaluation⟩, -, h3⟩ := bind_ok h2
  cases h3
  refine ⟨rfl, by omega, fun p hp => ?_⟩
  obtain ⟨id, d, hd, rfl⟩ := lookup_providersAndZkRoot hp
  cases hl : last.activeDeclarations.lookup .blendNetwork with
  | none =>
    rw [hl] at hd
    simp at hd
  | some declarations =>
    grind

theorem SdpLedger.applyActiveMsg_target {s s' : SdpLedger} {op : SDPActiveOp} {config : SdpConfig}
    {d : Declaration} (hd : s.getDeclaration op.declarationId = some d)
    (h : s.applyActiveMsg op config = .ok s') :
    s.Declared op.declarationId d ∧
      s'.Declared op.declarationId { d with active := s.epoch, nonce := op.nonce } ∧
      ∃ t service, s.services.lookup t = some service ∧
        ∃ target ∈ service.rewards.target.map (·.1),
          (target.providers.lookup d.providerId).isSome := by
  obtain ⟨t, service, rewards, hs, hlookup, hactive, rfl⟩ := applyActiveMsg_eq hd h
  refine ⟨⟨t, service, hs, hlookup⟩, (declared_insert hs rfl _ _).mpr (.inl ⟨rfl, rfl⟩),
    t, service, hs, ?_⟩
  unfold Rewards.updateActive at hactive
  split at hactive
  · cases hactive
  · rename_i target tracker proof htarget _
    obtain ⟨⟨zkId, distance⟩, hproof, -⟩ := bind_ok hactive
    obtain ⟨_, -, h1⟩ := bind_ok hproof
    obtain ⟨_, -, h2⟩ := bind_ok h1
    obtain ⟨entry, h3, -⟩ := bind_ok h2
    grind [okOr_ok]

end

/-! ## The invariant -/

/-- Only enrolled providers count, and `active` is not ahead of the epoch. -/
structure Membership (s : LedgerState) : Prop where
  created : ∀ id d, s.mantleLedger.sdp.Declared id d → d.created ≤ s.mantleLedger.sdp.epoch
  active : ∀ id d, s.mantleLedger.sdp.Declared id d →
    d.active ≤ max s.mantleLedger.sdp.epoch (d.created + snapshotFinalizationDelay)
  epoch : s.mantleLedger.sdp.EnrolledIn s.mantleLedger.sdp.epoch
    s.cryptarchiaLedger.epochState.activeDeclarations
  next : s.mantleLedger.sdp.EnrolledIn (s.mantleLedger.sdp.epoch + 1)
    s.cryptarchiaLedger.nextEpochState.activeDeclarations
  target : ∀ t service, s.mantleLedger.sdp.services.lookup t = some service →
    ∀ target ∈ service.rewards.target.map (·.1), target.epoch + 1 = s.mantleLedger.sdp.epoch ∧
      ∀ p, (target.providers.lookup p).isSome → s.mantleLedger.sdp.Enrolled target.epoch p

section

variable [Primitives] {eras : EraScheduledConfig} {tx : GenesisTx} {config : Config}
  {g s s' : LedgerState} {ls ls' : List Action} {a : Action} {proof : ZkSignature}
  {id : DeclarationId} {d d' : Declaration}

theorem Membership.header {h : Header} {events : List HeaderEvent} (hr : eras.Resolved)
    (hc : Clocks eras s) (hcons : s.mantleLedger.sdp.Consistent) (hm : Membership s)
    (hh : s.tryApplyHeader h eras = .ok (s', events)) : Membership s' := by
  obtain ⟨hlt, hslot⟩ := (Step.header hh).slot
  have hmono := hr.epochForSlot_mono hlt.le
  have hstart := (hr.epochForSlot_eq_iff.mp (rfl : eras.epochForSlot s.slot = _)).1
  have hc' := hc.header hr hcons hh
  have hE : s.mantleLedger.sdp.epoch = eras.epochForSlot s.slot := hc.sdp
  have hE' : s'.mantleLedger.sdp.epoch = eras.epochForSlot h.slot := by rw [hc'.sdp, hslot]
  obtain ⟨_, _, hheaded⟩ := headed hcons hh
  have hnextEpoch : s'.cryptarchiaLedger.epochState.epoch = eras.epochForSlot h.slot := by
    rw [hc'.epoch, hslot]
  obtain ⟨l, hl, hepoch', hnext', -⟩ := tryApplyHeader_moved hh
  obtain ⟨-, next, hfollowed, hmoved⟩ := CryptarchiaLedger.updateEpochState_moved hl
  have hsame : s.cryptarchiaLedger.slot = s.slot := rfl
  -- The snapshot for the next epoch was taken before the epoch of the state.
  have hnextDeclarations : next.activeDeclarations =
      s.cryptarchiaLedger.nextEpochState.activeDeclarations := by
    rw [hfollowed.activeDeclarations, hc.next, if_neg]
    exact not_lt.mpr hstart
  -- The header keeps what is enrolled, in the epochs that still matter.
  have hkeep : ∀ epoch m, eras.epochForSlot h.slot ≤ epoch + 1 →
      s.mantleLedger.sdp.EnrolledIn epoch m → s'.mantleLedger.sdp.EnrolledIn epoch m := by
    intro epoch m hle hin t declarations ht id d hd
    exact hheaded.enrolled (hin t declarations ht id d hd) (by rw [hnextEpoch]; exact hle)
  have hfresh : ∀ epoch, eras.epochForSlot s.slot + 2 ≤ epoch →
      s.mantleLedger.sdp.EnrolledIn epoch
        (CryptarchiaLedger.declarationsAt s.mantleLedger.sdp eras epoch) := by
    intro epoch hle
    refine enrolledIn_activeDeclarations fun id d hd => .inl ?_
    have hcreated := hm.created id d hd
    show d.created + 2 ≤ epoch
    omega
  refine ⟨fun id d hd => ?_, fun id d hd => ?_, ?_, ?_, fun t service' hs' target ht => ?_⟩
  · have hcreated := hm.created id d (hheaded.declared_of hd)
    omega
  · have hactive := hm.active id d (hheaded.declared_of hd)
    omega
  · rw [hepoch', hE']
    cases hmoved with
    | within he h1 _ =>
      grind [epoch]
    | next he _ _ _ _ h1 _ =>
      grind [next]
    | later he he' _ _ _ _ h1 _ =>
      rw [hsame] at he he'
      rw [h1]
      exact hkeep _ _ (Nat.le_succ _) (hfresh _ (by omega))
  · rw [hnext', hE']
    cases hmoved with
    | within he _ h2 =>
      grind [next]
    | next he _ _ _ _ _ h2 =>
      rw [hsame] at he
      rw [h2]
      exact hkeep _ _ (by omega) (hfresh _ (by omega))
    | later he he' _ _ _ _ _ h2 =>
      rw [hsame] at he he'
      rw [h2]
      exact hkeep _ _ (by omega) (hfresh _ (by omega))
  · obtain ⟨service, hs, hadvanced⟩ := hheaded.services t service' hs'
    have hrewards := hadvanced.rewards
    split at hrewards
    · -- The epoch ends and becomes the target, with the providers of its snapshot.
      obtain ⟨notes, hup⟩ := hrewards
      obtain ⟨target', h1, h2⟩ := bind_ok hup
      obtain ⟨h3, -⟩ := Prod.mk.inj (Except.ok.inj h2)
      rw [← h3] at ht
      cases target' with
      | none => cases ht
      | some target' =>
        cases ht
        obtain ⟨htarget, hnext, hproviders⟩ := Rewards.newTarget_ok h1
        rw [hc.epoch] at htarget hnext
        show target'.epoch + 1 = _ ∧ ∀ p, (target'.providers.lookup p).isSome →
          s'.mantleLedger.sdp.Enrolled target'.epoch p
        refine ⟨by omega, fun p hp => ?_⟩
        obtain ⟨t', declarations, id, d, ht', hd, rfl⟩ := hproviders p hp
        have henrolled := hm.epoch t' declarations ht' id d hd
        grind [SdpLedger.Headed.enrolled]
    · grind [target, Clocks.epoch, SdpLedger.Headed.enrolled]

theorem Membership.change {m : Option Message} (hm : Membership s)
    (hchange : SdpLedger.Change s.mantleLedger.sdp m s'.mantleLedger.sdp)
    (hsame : s.SameEpoch s') : Membership s' := by
  obtain ⟨hepoch, hservices⟩ := hchange.sameEpochs
  have hkeep : ∀ epoch m, epoch ≤ s.mantleLedger.sdp.epoch + 1 →
      s.mantleLedger.sdp.EnrolledIn epoch m → s'.mantleLedger.sdp.EnrolledIn epoch m := by
    intro epoch m hle hin t declarations ht id d hd
    exact hchange.enrolled (hin t declarations ht id d hd) hle
  refine ⟨fun id d' hd' => ?_, fun id d' hd' => ?_, ?_, ?_, fun t service' hs' target ht => ?_⟩
  · rw [hepoch]
    rcases hchange.declared_of hd' with hd | ⟨op, rfl⟩ | ⟨nonce, d, -, hd, htold⟩
    · exact hm.created id d' hd
    · exact le_rfl
    · have hcreated := hm.created id d hd
      cases htold <;> exact hcreated
  · rw [hepoch]
    rcases hchange.declared_of hd' with hd | ⟨op, rfl⟩ | ⟨nonce, d, -, hd, htold⟩
    · exact hm.active id d' hd
    · exact le_max_right _ _
    · cases htold with
      | active => exact le_max_left _ _
      | withdrawn => exact hm.active id d hd
  · rw [hsame.epochState, hepoch]
    exact hkeep _ _ (Nat.le_succ _) hm.epoch
  · rw [hsame.nextEpochState, hepoch]
    exact hkeep _ _ le_rfl hm.next
  · obtain ⟨service, hs, hrewards⟩ := hservices t service' hs'
    rw [hrewards.target] at ht
    grind [target, SdpLedger.Change.enrolled]

theorem Membership.step (hr : eras.Resolved) (hc : Clocks eras s)
    (hcons : s.mantleLedger.sdp.Consistent) (hm : Membership s) (hs : Step eras s a s') :
    Membership s' := by
  rcases hs.header_or with ⟨h, events, rfl, hh⟩ | ha
  · exact hm.header hr hc hcons hh
  · exact hm.change (hs.change ha) (hs.sameEpoch ha)

/-- Genesis declares in epoch 0, and no epoch has ended. -/
theorem LedgerState.declared_of_genesis (hg : fromGenesisTx tx config = .ok g) :
    (∀ id d, g.mantleLedger.sdp.Declared id d → d.created = 0 ∧ d.active = 2) ∧
      ∀ t service, g.mantleLedger.sdp.services.lookup t = some service →
        service.rewards.target.map (·.1) = none := by
  obtain ⟨-, hepoch, -⟩ := epochs_of_genesis hg
  obtain ⟨l, -, hdeclarations, heq⟩ := fromGenesisTx_ok hg
  have hstart : l.epochState.epoch = 0 := by
    rw [heq] at hepoch
    exact hepoch
  refine (fromGenesis_invariant (I := fun s => s.epoch = 0 ∧
    (∀ id d, s.Declared id d → d.created = 0 ∧ d.active = 2) ∧
    ∀ t service, s.services.lookup t = some service →
      service.rewards.target.map (·.1) = none) hdeclarations ?_ ?_).2
  · refine ⟨hstart, ?_, fun t service hs => ?_⟩
    · rintro id d ⟨t, service, hs, hd⟩
      rcases Map.lookup_insert_some.mp hs with ⟨-, rfl⟩ | ⟨-, hs⟩
      · simp at hd
      · cases hs
    · rcases Map.lookup_insert_some.mp hs with ⟨-, rfl⟩ | ⟨-, hs⟩
      · rfl
      · cases hs
  · rintro s s' ⟨hepoch, hdeclared, htarget⟩ hchange
    obtain ⟨hepoch', hservices⟩ := hchange.sameEpochs
    refine ⟨hepoch'.trans hepoch, fun id d' hd' => ?_, fun t service' hs' => ?_⟩
    · rcases hchange.declared_of hd' with hd | ⟨op, rfl⟩ | ⟨nonce, d, hnone, -, -⟩
      · exact hdeclared id d' hd
      · rw [hepoch]
        exact ⟨rfl, rfl⟩
      · cases hnone
    · grind [Rewards.SameEpochs.target]

theorem Membership.of_genesis (hg : fromGenesisTx tx config = .ok g) : Membership g := by
  obtain ⟨-, hepoch, hnext, -, hsdp, -⟩ := epochs_of_genesis hg
  obtain ⟨l, -, -, heq⟩ := fromGenesisTx_ok hg
  obtain ⟨hdeclared, htarget⟩ := declared_of_genesis hg
  have hseed : ∀ epoch params, epoch ≤ 1 → g.mantleLedger.sdp.EnrolledIn epoch
      (g.mantleLedger.sdp.activeDeclarations epoch params) := by
    grind [enrolledIn_activeDeclarations]
  refine ⟨fun id d hd => ?_, fun id d hd => ?_, ?_, ?_, fun t service hs target ht => ?_⟩
  · rw [(hdeclared id d hd).1]
    exact Nat.zero_le _
  · obtain ⟨hcreated, hactive⟩ := hdeclared id d hd
    rw [hcreated, hactive]
    exact le_max_right _ _
  · have hseeded := hseed 0 config.sdpConfig.serviceParams (Nat.zero_le _)
    rw [hsdp]
    rw [← hepoch, heq] at hseeded ⊢
    exact hseeded
  · have hseeded := hseed 1 config.sdpConfig.serviceParams le_rfl
    rw [hsdp, Nat.zero_add]
    rw [← hnext, heq] at hseeded ⊢
    exact hseeded
  · rw [htarget t service hs] at ht
    cases ht

/-! ## Reports of activity -/

/-- What the steps of a run keep of a state, for the membership. -/
structure Members (eras : EraScheduledConfig) (s : LedgerState) : Prop where
  clocks : Clocks eras s
  consistent : s.mantleLedger.sdp.Consistent
  membership : Membership s
  withdrawn : ∀ id d w, s.mantleLedger.sdp.Declared id d → d.withdrawAt = some w →
    d.created + snapshotFinalizationDelay ≤ w

theorem Members.of_run (hr : eras.Resolved) (hg : fromGenesisTx tx config = .ok g)
    (hrun : Run (Step eras) g ls s) : Members eras s := by
  have hclocks := Clocks.of_run hr hg hrun
  have hlifecycles := hrun.history (I := Lifecycles) (.of_genesis hg) fun _ _ _ _ h hs => h.step hs
  refine ⟨hclocks, hlifecycles.consistent, ?_, hlifecycles.sdp.withdrawn⟩
  refine (hrun.invariant (I := fun s => Clocks eras s ∧ s.mantleLedger.sdp.Consistent ∧
    Membership s) ⟨.of_genesis hr hg, consistent_of_genesis hg, .of_genesis hg⟩ ?_).2.2
  grind [consistent_of_step, Clocks.step, Membership.step]

/-- A report is about a declaration made three epochs before it, or at genesis. -/
theorem Membership.report (hm : Membership s) (hcons : s.mantleLedger.sdp.Consistent)
    {op : SDPActiveOp} (hs : Step eras s (.operation (.sdpActive op proof)) s') :
    ∃ d, s.mantleLedger.sdp.Declared op.declarationId d ∧
      s'.mantleLedger.sdp.Declared op.declarationId
        { d with active := s.mantleLedger.sdp.epoch, nonce := op.nonce } ∧
      1 ≤ s.mantleLedger.sdp.epoch ∧
      (d.created + 3 ≤ s.mantleLedger.sdp.epoch ∨
        (d.created = 0 ∧ s.mantleLedger.sdp.epoch ≤ 2)) := by
  cases hs with
  | operation hv ha =>
    obtain ⟨d, hv1, -⟩ := bind_ok hv
    obtain ⟨sdp, h1, h2⟩ := bind_ok ha
    cases h2
    obtain ⟨hd, hd', t, service, hservice, target, htarget, hprovider⟩ :=
      applyActiveMsg_target (okOr_ok.mp hv1) (wrap_ok.mp h1)
    obtain ⟨hepoch, hproviders⟩ := hm.target t service hservice target htarget
    obtain ⟨id, e, he, hp, henrolled⟩ := hproviders _ hprovider
    -- A provider has one declaration.
    have heq : e = d := by
      obtain ⟨t1, service1, hs1, he1⟩ := he
      obtain ⟨t2, service2, hs2, hd2⟩ := hd
      rw [hs1] at hs2
      cases hs2
      have hid := (hcons.services _ service1 hs1).providers.unique he1 hd2 hp
      subst hid
      exact Option.some.inj (he1.symm.trans hd2)
    subst heq
    refine ⟨e, hd, hd', by omega, ?_⟩
    rcases henrolled.created with hle | ⟨hzero, hle⟩
    · change e.created + 2 ≤ target.epoch at hle
      omega
    · omega

theorem active_of_withdraw {op : SDPWithdrawOp}
    (hs : Step eras s (.operation (.sdpWithdraw op proof)) s') :
    ∃ d, s.mantleLedger.sdp.Declared op.declarationId d ∧
      s'.mantleLedger.sdp.Declared op.declarationId { d with
        withdrawAt := some (s.mantleLedger.sdp.epoch + snapshotFinalizationDelay)
        nonce := op.nonce } := by
  cases hs with
  | operation hv ha =>
    obtain ⟨d, hv1, -⟩ := bind_ok hv
    obtain ⟨sdp, h1, h2⟩ := bind_ok ha
    cases h2
    obtain ⟨t, service, hservice, hlookup, rfl⟩ :=
      applyWithdrawnMsg_eq (okOr_ok.mp hv1) (wrap_ok.mp h1)
    exact ⟨d, ⟨t, service, hservice, hlookup⟩,
      (declared_insert hservice rfl _ _).mpr (.inl ⟨rfl, rfl⟩)⟩

/-- A report of activity does not come in epoch 1. -/
def LedgerState.ReportsLater (s : LedgerState) : SignedOp → Prop
  | .sdpActive _ _ => s.mantleLedger.sdp.epoch ≠ 1
  | _ => True

instance (s : LedgerState) : (op : SignedOp) → Decidable (s.ReportsLater op)
  | .sdpActive _ _ => @instDecidableNot _ (Nat.decEq s.mantleLedger.sdp.epoch 1)
  | .channelInscribe _ _ | .channelConfig _ _ | .channelDeposit _ _ | .channelWithdraw _ _
  | .channelTransfer _ _ | .sdpDeclare _ _ | .sdpWithdraw _ _ | .leaderClaim _ _ | .transfer _ _
  | .claimPowReward _ => .isTrue trivial

omit [Primitives] in
/-- A report that does not come in epoch 1 sets the field `active` forward. -/
theorem Membership.active_le (hm : Membership s) (hd : s.mantleLedger.sdp.Declared id d)
    (hne : s.mantleLedger.sdp.epoch ≠ 1) (hpos : 1 ≤ s.mantleLedger.sdp.epoch)
    (hmade : d.created + 3 ≤ s.mantleLedger.sdp.epoch ∨
      (d.created = 0 ∧ s.mantleLedger.sdp.epoch ≤ 2)) : d.active ≤ s.mantleLedger.sdp.epoch := by
  grind [snapshotFinalizationDelay, active]

/-! ## Runs -/

/-- A lifecycle that started in an epoch has ended. -/
def SdpLedger.Ended (s : SdpLedger) (id : DeclarationId) (created : Nat) : Prop :=
  created < s.epoch ∧ ∀ d, s.Declared id d → created < d.created

theorem SdpLedger.Ended.step {created : Nat} (hr : eras.Resolved) (hm : Members eras s)
    (h : s.mantleLedger.sdp.Ended id created) (hs : Step eras s a s') :
    s'.mantleLedger.sdp.Ended id created := by
  obtain ⟨hlt, hdeclared⟩ := h
  rcases hs.header_or with ⟨header, events, rfl, hh⟩ | ha
  · obtain ⟨_, _, hheaded⟩ := headed hm.consistent hh
    refine ⟨?_, fun d hd => hdeclared d (hheaded.declared_of hd)⟩
    have hclock := hm.clocks.sdp
    have hclock' := (hm.clocks.step hr hm.consistent hs).sdp
    have hmono := hr.epochForSlot_mono (Step.slot hs).1.le
    rw [← (Step.slot hs).2] at hmono
    omega
  · have hchange := hs.change ha
    obtain ⟨hepoch, -⟩ := hchange.sameEpochs
    refine ⟨by omega, fun d' hd' => ?_⟩
    rcases hchange.declared_of hd' with hd | ⟨op, rfl⟩ | ⟨nonce, d, -, hd, htold⟩
    · exact hdeclared d' hd
    · exact hlt
    · have hcreated := hdeclared d hd
      cases htold <;> exact hcreated

/-- A message leaves the field `active` of its declaration or sets it forward. -/
theorem GuardedStep.active_le_of_message {nonce : Nonce} (hm : Members eras s)
    (hs : GuardedStep eras LedgerState.ReportsLater s a s')
    (hmessage : a.message? = some (id, nonce)) (hd : s.mantleLedger.sdp.Declared id d)
    (hd' : s'.mantleLedger.sdp.Declared id d') : d.active ≤ d'.active := by
  obtain ⟨hstep, hlater⟩ := hs
  cases a with
  | header | seen | settled | counted => cases hmessage
  | operation op =>
    cases op with
    | sdpActive op proof =>
      cases hmessage
      obtain ⟨e, he, he', hpos, hmade⟩ := hm.membership.report hm.consistent hstep
      cases SdpLedger.Declared.unique hd he
      rw [SdpLedger.Declared.unique hd' he']
      exact hm.membership.active_le hd (hlater _ rfl) hpos hmade
    | sdpWithdraw op proof =>
      cases hmessage
      grind [active_of_withdraw, SdpLedger.Declared.unique]
    | channelInscribe | channelConfig | channelDeposit | channelWithdraw | channelTransfer
    | sdpDeclare | leaderClaim | transfer | claimPowReward => cases hmessage

/-- A step leaves the field `active` of a declaration or sets it forward, or its lifecycle ends. -/
theorem GuardedStep.active_le (hm : Members eras s)
    (hs : GuardedStep eras LedgerState.ReportsLater s a s')
    (hd : s.mantleLedger.sdp.Declared id d) :
    (∃ d', s'.mantleLedger.sdp.Declared id d' ∧ d'.created = d.created ∧ d.active ≤ d'.active) ∨
      s'.mantleLedger.sdp.Ended id d.created := by
  rcases hs.1.header_or with ⟨header, events, rfl, hh⟩ | ha
  · obtain ⟨_, _, hheaded⟩ := headed hm.consistent hh
    by_cases hkept : s'.mantleLedger.sdp.Declared id d
    · exact .inl ⟨d, hkept, rfl, le_rfl⟩
    · refine .inr ⟨?_, fun e he => ?_⟩
      · -- It was withdrawn, two epochs after it was made or later.
        have hw := (hheaded.declared_or hd).resolve_left hkept
        unfold Declaration.withdrawnBefore at hw
        split at hw
        · cases hw
        · rename_i w hwithdraw
          have hbefore : w < _ := of_decide_eq_true hw
          have hafter := hm.withdrawn id d w hd hwithdraw
          rw [hheaded.epoch]
          omega
      · have heq := SdpLedger.Declared.unique (hheaded.declared_of he) hd
        exact absurd (heq ▸ he) hkept
  · rcases (hs.1.change ha).declared_kept hd with hd' | ⟨nonce, d', hmessage, hd', htold⟩
    · exact .inl ⟨d, hd', rfl, le_rfl⟩
    · have hcreated : d'.created = d.created := by cases htold <;> rfl
      exact .inl ⟨d', hd', hcreated, hs.active_le_of_message hm hmessage hd hd'⟩

omit [Primitives] in
theorem isActive_of_active_le {epoch : Nat} {params : ServiceParameters}
    (hle : d.active ≤ d'.active) (hw : d'.withdrawAt = d.withdrawAt)
    (h : isActive d epoch params = true) : isActive d' epoch params = true := by
  unfold isActive at h ⊢
  rw [Bool.and_eq_true, decide_eq_true_iff] at h ⊢
  grind

/-- While no report comes in epoch 1, no declaration is active only in an epoch before 2. -/
theorem headStart_of_run (hr : eras.Resolved) (hg : fromGenesisTx tx config = .ok g)
    (hrun : Run (GuardedStep eras LedgerState.ReportsLater) g ls s) :
    ∀ id d, s.mantleLedger.sdp.Declared id d → 2 ≤ d.active := by
  induction hrun with
  | nil =>
    grind [declared_of_genesis]
  | snoc hsofar hs ih =>
    have hm := Members.of_run hr hg (hsofar.mono fun _ _ _ h => h.1)
    intro id d' hd'
    rcases hs.1.header_or with ⟨header, events, rfl, hh⟩ | ha
    · obtain ⟨_, _, hheaded⟩ := headed hm.consistent hh
      exact ih id d' (hheaded.declared_of hd')
    · rcases (hs.1.change ha).declared_of hd' with hd | ⟨op, rfl⟩ | ⟨nonce, d, hmessage, hd, -⟩
      · exact ih id d' hd
      · exact Nat.le_add_left _ _
      · exact (ih id d hd).trans (hs.active_le_of_message hm hmessage hd hd')

/-- **A report of activity does not shorten a membership, but for epoch 1.** Without a report in
epoch 1 the field `active` never decreases during a lifecycle. -/
theorem activity_extends (hr : eras.Resolved) (hg : fromGenesisTx tx config = .ok g)
    (hrun : Run (GuardedStep eras LedgerState.ReportsLater) g ls s) :
    (∀ ls' s', Run (GuardedStep eras LedgerState.ReportsLater) s ls' s' →
      ∀ id d d', s.mantleLedger.sdp.Declared id d → s'.mantleLedger.sdp.Declared id d' →
        d'.created = d.created → d.active ≤ d'.active) ∧
    ∀ op proof s', Step eras s (.operation (.sdpActive op proof)) s' →
      ∃ d d', s.mantleLedger.sdp.Declared op.declarationId d ∧
        s'.mantleLedger.sdp.Declared op.declarationId d' ∧
        (d.active ≤ d'.active ↔ s.mantleLedger.sdp.epoch ≠ 1) ∧
        (s.mantleLedger.sdp.epoch ≠ 1 → ∀ epoch params,
          isActive d epoch params = true → isActive d' epoch params = true) := by
  have hmembers : ∀ {ls s}, Run (GuardedStep eras LedgerState.ReportsLater) g ls s →
      Members eras s := fun hrun => .of_run hr hg (hrun.mono fun _ _ _ h => h.1)
  constructor
  · intro ls' s' hrest id d d' hd hd' hcreated
    -- The lifecycle goes on, with a later epoch in its field, or it has ended.
    have hfollow : (∃ e, s'.mantleLedger.sdp.Declared id e ∧ e.created = d.created ∧
        d.active ≤ e.active) ∨ s'.mantleLedger.sdp.Ended id d.created := by
      clear hd' hcreated
      induction hrest with
      | nil => exact .inl ⟨d, hd, rfl, le_rfl⟩
      | snoc hsofar hstep ih =>
        have hm := hmembers (hrun.append hsofar)
        rcases ih with ⟨e, he, hsame, hle⟩ | hended
        · grind [GuardedStep.active_le]
        · exact .inr (hended.step hr hm hstep.1)
    rcases hfollow with ⟨e, he, -, hle⟩ | ⟨-, hended⟩
    · rw [SdpLedger.Declared.unique hd' he]
      exact hle
    · exact absurd hcreated (hended d' hd').ne'
  · intro op proof s' hstep
    have hm := hmembers hrun
    obtain ⟨d, hd, hd', hpos, hmade⟩ := hm.membership.report hm.consistent hstep
    grind [headStart_of_run, isActive_of_active_le, Membership.active_le, Members.membership]

end

def reportTx (epoch : Nat) : SignedOps :=
  ⟨0, [.sdpActive ⟨9, ⟨0, 1⟩, .blend ⟨epoch, 0, 0, 0⟩⟩ 0, .transfer ⟨.single 9001, .empty⟩ 0]⟩

def afterReport [Primitives] (bs : List Block) (slot epoch : Nat) :
    Result LedgerError (LedgerState × LedgerState × LedgerState) := do
  let g ← fromGenesisTx genesisWithService .small
  let s ← g.applyBlocks twoEras bs
  let s' ← s.applyBlocks twoEras [⟨9, headerAt slot, [reportTx epoch]⟩]
  return (g, s, s')

/-- A report in epoch 3 takes the field from 2 to 3. -/
theorem activity_extends_epochThree :
    letI := Primitives.plain
    ∃ g s s' ls ls' d d', fromGenesisTx genesisWithService .small = .ok g ∧
      Run (GuardedStep twoEras LedgerState.ReportsLater) g ls s ∧
      Run (GuardedStep twoEras LedgerState.ReportsLater) s ls' s' ∧
      s.mantleLedger.sdp.Declared 9 d ∧ s'.mantleLedger.sdp.Declared 9 d' ∧
      d.active = 2 ∧ d'.active = 3 ∧ d.active ≤ d'.active := by
  let _ := Primitives.plain
  obtain ⟨⟨g, s, s'⟩, h, hguard, hguard', hd, hd'⟩ := exists_ok
    (x := afterReport [⟨1, headerAt 11, []⟩, ⟨2, headerAt 21, []⟩] 33 2)
    (fun r => r.1.ChainAlong LedgerState.ReportsLater twoEras
        [⟨1, headerAt 11, []⟩, ⟨2, headerAt 21, []⟩] ∧
      r.2.1.ChainAlong LedgerState.ReportsLater twoEras [⟨9, headerAt 33, [reportTx 2]⟩] ∧
      (r.2.1.mantleLedger.sdp.getDeclaration 9).map (fun d => (d.created, d.active)) = some (0, 2) ∧
      (r.2.2.mantleLedger.sdp.getDeclaration 9).map (fun d => (d.created, d.active)) = some (0, 3))
    (by decide +kernel)
  obtain ⟨_, h1, h2⟩ := bind_ok h
  obtain ⟨_, h3, h4⟩ := bind_ok h2
  obtain ⟨_, h5, h6⟩ := bind_ok h4
  cases h6
  obtain ⟨d, hdeclared, hfields⟩ := Option.map_eq_some_iff.mp hd
  obtain ⟨d', hdeclared', hfields'⟩ := Option.map_eq_some_iff.mp hd'
  obtain ⟨hcreated, hactive⟩ := Prod.mk.inj hfields
  obtain ⟨hcreated', hactive'⟩ := Prod.mk.inj hfields'
  have hrun := applyBlocks_guarded h3 hguard
  have hrest := applyBlocks_guarded h5 hguard'
  have hextends := (activity_extends twoEras_resolved h1 hrun).1 _ s' hrest 9 d d'
    (declared_of_getDeclaration hdeclared)
    (declared_of_getDeclaration hdeclared') (hcreated'.trans hcreated.symm)
  exact ⟨g, s, s', _, _, d, d', h1, hrun, hrest, declared_of_getDeclaration hdeclared,
    declared_of_getDeclaration hdeclared', hactive, hactive', hextends⟩

/-- A report in epoch 1 takes the field from 2 to 1: the declaration is not active in epoch 4. -/
theorem report_shortens_membership :
    letI := Primitives.plain
    ∃ g s s' d d', fromGenesisTx genesisWithService .small = .ok g ∧
      g.applyBlocks twoEras [⟨1, headerAt 1, []⟩] = .ok s ∧
      s.applyBlocks twoEras [⟨9, headerAt 11, [reportTx 0]⟩] = .ok s' ∧
      s.mantleLedger.sdp.Declared 9 d ∧ s'.mantleLedger.sdp.Declared 9 d' ∧
      d'.created = d.created ∧ d'.active < d.active ∧
      ∃ params, isActive d 4 params = true ∧ isActive d' 4 params = false := by
  let _ := Primitives.plain
  let params : ServiceParameters := ⟨2, 0, by decide⟩
  let seen : Declaration → Nat × Nat × Bool := fun d => (d.created, d.active, isActive d 4 params)
  obtain ⟨⟨g, s, s'⟩, h, hd, hd'⟩ := exists_ok (x := afterReport [⟨1, headerAt 1, []⟩] 11 0)
    (fun r => (r.2.1.mantleLedger.sdp.getDeclaration 9).map seen = some (0, 2, true) ∧
      (r.2.2.mantleLedger.sdp.getDeclaration 9).map seen = some (0, 1, false)) (by decide +kernel)
  obtain ⟨_, h1, h2⟩ := bind_ok h
  obtain ⟨_, h3, h4⟩ := bind_ok h2
  obtain ⟨_, h5, h6⟩ := bind_ok h4
  cases h6
  grind [declared_of_getDeclaration, Option.map_eq_some_iff]

end Logos.Ledger
