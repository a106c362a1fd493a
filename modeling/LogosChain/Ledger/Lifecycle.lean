import LogosChain.Ledger.Clocks

/-!
# The lifecycles of a declaration (`core/src/mantle/ops/sdp`, `core/src/sdp`)

A declaration that was removed can be made again under the same id, and its nonces start again. A
nonce names the epoch in which its lifecycle started. Two lifecycles of one id start in different
epochs: so no message is accepted twice.
-/

namespace Logos.Ledger

open Base Mantle LedgerState

/-- A message about a declaration, by its id and its nonce. -/
abbrev Message := DeclarationId × Nonce

/-- One message comes before another of the same lifecycle. -/
def Message.Before (m m' : Message) : Prop :=
  m.1 = m'.1 → m.2.lifecycleEpoch = m'.2.lifecycleEpoch → m.2.sequence < m'.2.sequence

/-- The messages that the steps of a run accept, in their order. -/
def messages (ls : List Action) : List Message := ls.filterMap Action.message?

theorem messages_snoc (ls : List Action) (a : Action) :
    messages (ls ++ [a]) = messages ls ++ a.message?.toList := by grind [messages]

namespace SdpLedger

/-- A declaration of some service. -/
def Declared (s : SdpLedger) (id : DeclarationId) (d : Declaration) : Prop :=
  ∃ t service, s.services.lookup t = some service ∧ service.declarations.lookup id = some d

variable {id : DeclarationId} {d d' : Declaration} {s s' : SdpLedger} {log : List Message}

theorem Declared.unique (h : s.Declared id d) (h' : s.Declared id d') : d = d' := by
  obtain ⟨t, service, hs, hd⟩ := h
  obtain ⟨t', service', hs', hd'⟩ := h'
  grind

/-- The declarations after a change of a service. -/
theorem declared_insert {t : ServiceType} {service service' : ServiceState}
    {serviceNotes : ServiceNotes} (hs : s.services.lookup t = some service)
    (hd' : service'.declarations = service.declarations.insert id d') (k : DeclarationId)
    (e : Declaration) :
    SdpLedger.Declared ⟨s.services.insert t service', serviceNotes, s.epoch⟩ k e ↔
      (k = id ∧ e = d') ∨ (k ≠ id ∧ s.Declared k e) := by
  constructor
  · rintro ⟨t', service1, hs1, he⟩
    rcases Map.lookup_insert_some.mp hs1 with ⟨rfl, rfl⟩ | ⟨hne, hs1⟩
    · rw [hd'] at he
      rcases Map.lookup_insert_some.mp he with ⟨rfl, rfl⟩ | ⟨hk, he⟩
      · exact .inl ⟨rfl, rfl⟩
      · exact .inr ⟨hk, t', service, hs, he⟩
    · cases t
      exact absurd rfl hne
  · rintro (⟨rfl, rfl⟩ | ⟨hk, t', service1, hs1, he⟩)
    · exact ⟨t, service', by simp, by rw [hd']; simp⟩
    · cases t
      rw [hs] at hs1
      cases hs1
      exact ⟨.blendNetwork, service', by simp,
        by rw [hd']; exact Map.lookup_insert_some.mpr (.inr ⟨hk, he⟩)⟩

/-- Messages are of earlier lifecycles or not after the last of this one. -/
structure Lifecycles (log : List Message) (s : SdpLedger) : Prop where
  created : ∀ id d, s.Declared id d → d.created ≤ s.epoch
  withdrawn : ∀ id d w, s.Declared id d → d.withdrawAt = some w →
    d.created + snapshotFinalizationDelay ≤ w
  declared : ∀ m ∈ log, ∀ d, s.Declared m.1 d → m.2.lifecycleEpoch < d.created ∨
    (m.2.lifecycleEpoch = d.created ∧ m.2.sequence ≤ d.nonce.sequence)
  removed : ∀ m ∈ log, (∀ d, ¬ s.Declared m.1 d) → m.2.lifecycleEpoch < s.epoch
  increasing : log.Pairwise Message.Before

theorem declared_addBlendIncome (s : SdpLedger) (income : Nat) (id : DeclarationId)
    (d : Declaration) : (s.addBlendIncome income).Declared id d ↔ s.Declared id d := by
  unfold SdpLedger.addBlendIncome
  split
  · rfl
  · rename_i service hs
    constructor
    · rintro ⟨t, service', hs', hd⟩
      rcases Map.lookup_insert_some.mp hs' with ⟨rfl, rfl⟩ | ⟨-, hs'⟩
      · exact ⟨_, service, hs, hd⟩
      · exact ⟨t, service', hs', hd⟩
    · rintro ⟨t, service', hs', hd⟩
      rw [hs] at hs'
      cases hs'
      exact ⟨.blendNetwork, _, Map.lookup_insert_some.mpr (.inl ⟨rfl, rfl⟩), hd⟩

theorem Lifecycles.of_declared (h : s.Lifecycles log)
    (hd : ∀ id d, s'.Declared id d ↔ s.Declared id d) (he : s'.epoch = s.epoch) :
    s'.Lifecycles log where
  created := by simpa only [hd, he] using h.created
  withdrawn := by simpa only [hd] using h.withdrawn
  declared := by simpa only [hd] using h.declared
  removed := by simpa only [hd, he] using h.removed
  increasing := h.increasing

theorem Lifecycles.declare (h : s.Lifecycles log) (hnew : ∀ d, ¬ s.Declared id d)
    (hcreated : d'.created = s.epoch) (hw : d'.withdrawAt = none)
    (hd : ∀ k e, s'.Declared k e ↔ (k = id ∧ e = d') ∨ (k ≠ id ∧ s.Declared k e))
    (he : s'.epoch = s.epoch) : s'.Lifecycles log where
  created := by
    intro k e hke
    rw [he]
    rcases (hd k e).mp hke with ⟨-, rfl⟩ | ⟨-, hke⟩
    · exact hcreated.le
    · exact h.created k e hke
  withdrawn := by
    intro k e w hke hew
    rcases (hd k e).mp hke with ⟨-, rfl⟩ | ⟨-, hke⟩
    · cases hw.symm.trans hew
    · exact h.withdrawn k e w hke hew
  declared := by
    intro m hm e hke
    rcases (hd m.1 e).mp hke with ⟨hid, rfl⟩ | ⟨-, hke⟩
    · -- The messages so far about the id are of lifecycles that have ended.
      rw [hcreated]
      exact .inl (h.removed m hm fun d hmd => hnew d (hid ▸ hmd))
    · exact h.declared m hm e hke
  removed := by
    intro m hm hnone
    rw [he]
    refine h.removed m hm fun d hmd => ?_
    grind
  increasing := h.increasing

theorem Lifecycles.message {nonce : Nonce} (h : s.Lifecycles log) (hid : s.Declared id d)
    (hlifecycle : nonce.lifecycleEpoch = d.created) (hsequence : d.nonce.sequence < nonce.sequence)
    (htold : Declaration.Told s.epoch nonce d d')
    (hd : ∀ k e, s'.Declared k e ↔ (k = id ∧ e = d') ∨ (k ≠ id ∧ s.Declared k e))
    (he : s'.epoch = s.epoch) : s'.Lifecycles (log ++ [(id, nonce)]) := by
  have hcreated : d'.created = d.created := by cases htold <;> rfl
  have hnonce : d'.nonce = nonce := by cases htold <;> rfl
  have hsofar : ∀ m ∈ log, m.1 = id → m.2.lifecycleEpoch < d.created ∨
      (m.2.lifecycleEpoch = d.created ∧ m.2.sequence ≤ d.nonce.sequence) :=
    fun m hm hmid => h.declared m hm d (hmid ▸ hid)
  refine ⟨fun k e hke => ?_, fun k e w hke hew => ?_, fun m hm e hke => ?_, fun m hm hnone => ?_, ?_⟩
  · rw [he]
    rcases (hd k e).mp hke with ⟨-, rfl⟩ | ⟨-, hke⟩
    · rw [hcreated]
      exact h.created id d hid
    · exact h.created k e hke
  · rcases (hd k e).mp hke with ⟨-, rfl⟩ | ⟨-, hke⟩
    · rw [hcreated]
      cases htold with
      | active => exact h.withdrawn id d w hid hew
      | withdrawn =>
        cases hew
        exact Nat.add_le_add_right (h.created id d hid) _
    · exact h.withdrawn k e w hke hew
  · rcases (hd m.1 e).mp hke with ⟨hmid, rfl⟩ | ⟨hne, hke⟩
    · grind
    · rcases List.mem_append.mp hm with hm | hm
      · exact h.declared m hm e hke
      · cases List.mem_singleton.mp hm
        exact absurd rfl hne
  · rw [he]
    by_cases hmid : m.1 = id
    · exact absurd ((hd m.1 d').mpr (.inl ⟨hmid, rfl⟩)) (hnone d')
    · rcases List.mem_append.mp hm with hm | hm
      · exact h.removed m hm fun e hke => hnone e ((hd m.1 e).mpr (.inr ⟨hmid, hke⟩))
      · cases List.mem_singleton.mp hm
        exact absurd rfl hmid
  · rw [List.pairwise_append]
    refine ⟨h.increasing, List.pairwise_singleton _ _, fun m hm m' hm' => ?_⟩
    cases List.mem_singleton.mp hm'
    intro hmid hsame
    grind

variable [Primitives]

theorem Change.lifecycles {m : Option Message} (hs : Change s m s') (h : s.Lifecycles log) :
    s'.Lifecycles (log ++ m.toList) := by
  cases hs with
  | same => simpa using h
  | income amount =>
    grind [declared_addBlendIncome, addBlendIncome, Lifecycles.of_declared]
  | @declare op service _ _ _ _ _ r hs hv hx =>
    obtain ⟨hid, -, -⟩ := SDPDeclareOp.validate_new (r := service.registrations s.serviceNotes) hv
    have hinsert := SDPDeclareOp.execute_declarations hx
    have hnew : ∀ d, ¬ s.Declared op.id d := by
      rintro d ⟨t, service', hs', hd⟩
      have heq : service' = service := by grind
      rw [heq] at hd
      cases hid.symm.trans hd
    have hcreated : (Declaration.new s.epoch op).created = s.epoch := rfl
    simpa using h.declare hnew hcreated rfl (declared_insert hs hinsert) rfl
  | message hs hd hlifecycle hsequence htold _ =>
    exact h.message ⟨_, _, hs, hd⟩ hlifecycle hsequence htold (declared_insert hs rfl) rfl

/-- A message is for the lifecycle its nonce names. -/
theorem Change.message_lifecycle {m : Message} (hs : Change s (some m) s') :
    ∃ d, s.Declared m.1 d ∧ m.2.lifecycleEpoch = d.created := by
  cases hs with
  | message hs hd hlifecycle => exact ⟨_, ⟨_, _, hs, hd⟩, hlifecycle⟩

/-! ## Headers -/

section

variable {last next : EpochState} {lastConfig config : SdpConfig} {events : List HeaderEvent}
  {id : DeclarationId} {d : Declaration}

theorem Headed.declared_of (h : Headed last next lastConfig config s s' events)
    (hd : s'.Declared id d) : s.Declared id d := by
  obtain ⟨t, service', hs', hd⟩ := hd
  obtain ⟨service, hs, hadvanced⟩ := h.services t service' hs'
  exact ⟨t, service, hs, ((hadvanced.declarations id d).mp hd).1⟩

/-- A header removes only declarations whose withdrawal has taken effect. -/
theorem Headed.declared_or (h : Headed last next lastConfig config s s' events)
    (hd : s.Declared id d) : s'.Declared id d ∨ d.withdrawnBefore next.epoch = true := by
  obtain ⟨t, service, hs, hd⟩ := hd
  obtain ⟨service', hs'⟩ := Option.isSome_iff_exists.mp (h.kept t (by rw [hs]; rfl))
  obtain ⟨service0, hs0, hadvanced⟩ := h.services t service' hs'
  rw [hs] at hs0
  cases hs0
  by_cases hw : d.withdrawnBefore next.epoch = true
  · exact .inr hw
  · exact .inl ⟨t, service', hs', (hadvanced.declarations id d).mpr
      ⟨hd, fun _ => Bool.not_eq_true _ ▸ hw⟩⟩

theorem Headed.lifecycles (hh : Headed last next lastConfig config s s' events)
    (hle : s.epoch ≤ next.epoch) (h : s.Lifecycles log) : s'.Lifecycles log := by
  refine ⟨fun id d hd => ?_, fun id d w hd hw => ?_, fun m hm d hd => ?_, fun m hm hnone => ?_,
    h.increasing⟩
  · rw [hh.epoch]
    exact (h.created id d (hh.declared_of hd)).trans hle
  · exact h.withdrawn id d w (hh.declared_of hd) hw
  · exact h.declared m hm d (hh.declared_of hd)
  · rw [hh.epoch]
    by_cases hbefore : ∃ d, s.Declared m.1 d
    · obtain ⟨d, hd⟩ := hbefore
      rcases hh.declared_or hd with hd' | hw
      · exact absurd hd' (hnone d)
      · -- The lifecycle started two epochs before its withdrawal took effect.
        unfold Declaration.withdrawnBefore at hw
        split at hw
        · cases hw
        · rename_i w hwithdraw
          have h1 := h.withdrawn m.1 d w hd hwithdraw
          have h2 : w < next.epoch := of_decide_eq_true hw
          have h3 : m.2.lifecycleEpoch ≤ d.created := by
            rcases h.declared m hm d hd with hlt | ⟨heq, -⟩
            · exact hlt.le
            · exact heq.le
          omega
    · push Not at hbefore
      exact (h.removed m hm hbefore).trans_le hle

end

end SdpLedger

/-! ## Every run -/

section

variable [Primitives] {eras : EraScheduledConfig} {tx : GenesisTx} {config : Config}
  {g s s' : LedgerState} {ls : List Action}

/-- The services are consistent, and the leaders are in their epoch. -/
structure Lifecycles (ls : List Action) (s : LedgerState) : Prop where
  consistent : s.mantleLedger.sdp.Consistent
  epoch : s.mantleLedger.leaders.epoch = s.mantleLedger.sdp.epoch
  sdp : s.mantleLedger.sdp.Lifecycles (messages ls)

theorem Lifecycles.of_genesis (hg : fromGenesisTx tx config = .ok g) : Lifecycles [] g := by
  obtain ⟨-, -, -, hleaders, hsdp, -⟩ := epochs_of_genesis hg
  obtain ⟨l, -, h1, -⟩ := fromGenesisTx_ok hg
  refine ⟨consistent_of_genesis hg, hleaders.trans hsdp.symm, ?_⟩
  refine SdpLedger.fromGenesis_invariant (I := fun s => s.Lifecycles []) h1 ?_ ?_
  · have hnone : ∀ id d, ¬ ((SdpLedger.new l.epochState.epoch).withBlendService
        config.sdpConfig.blendRewardsParams l.epochState).Declared id d := by
      rintro id d ⟨t, service, hs, hd⟩
      rcases Map.lookup_insert_some.mp hs with ⟨-, rfl⟩ | ⟨-, hs⟩
      · simp at hd
      · cases hs
    exact ⟨fun id d hd => absurd hd (hnone id d), fun id d _ hd => absurd hd (hnone id d),
      fun _ hm => absurd hm List.not_mem_nil, fun _ hm => absurd hm List.not_mem_nil, .nil⟩
  · intro s s' h hchange
    exact hchange.lifecycles h

theorem Lifecycles.step {a : Action} (h : Lifecycles ls s) (hs : Step eras s a s') :
    Lifecycles (ls ++ [a]) s' := by
  have hcons := consistent_of_step hs h.consistent
  rcases hs.header_or with ⟨header, events, rfl, hh⟩ | ha
  · obtain ⟨_, _, hheaded⟩ := headed h.consistent hh
    obtain ⟨l, -, hepoch, -, -, hle, hleaders⟩ := tryApplyHeader_moved hh
    refine ⟨hcons, ?_, ?_⟩
    · rw [hleaders, hheaded.epoch, hepoch]
    · have hnone : (Action.header header).message? = none := rfl
      grind [messages_snoc, SdpLedger.Headed.lifecycles, epoch, sdp]
  · refine ⟨hcons, ?_, ?_⟩
    · rw [(hs.sameEpoch ha).leaders, (hs.change ha).sameEpochs.1, h.epoch]
    · rw [messages_snoc]
      exact (hs.change ha).lifecycles h.sdp

/-- **Messages about declarations are single-use**, and the sequence numbers of a lifecycle grow. -/
theorem messages_single_use (hg : fromGenesisTx tx config = .ok g) (hrun : Run (Step eras) g ls s) :
    (messages ls).Nodup ∧ (messages ls).Pairwise Message.Before ∧
      ∀ a s', Step eras s a s' → ∀ m ∈ a.message?,
        ∃ d, s.mantleLedger.sdp.Declared m.1 d ∧ m.2.lifecycleEpoch = d.created := by
  have hend := hrun.history (I := Lifecycles) (.of_genesis hg) fun _ _ _ _ h hs => h.step hs
  have hbefore := hend.sdp.increasing
  refine ⟨hbefore.imp ?_, hbefore, fun a s' hs m hm => ?_⟩
  · rintro m _ hm rfl
    exact lt_irrefl _ (hm rfl rfl)
  · rcases hs.header_or with ⟨header, events, rfl, -⟩ | ha
    · cases hm
    · have hchange := hs.change ha
      rw [Option.mem_def.mp hm] at hchange
      exact hchange.message_lifecycle

end

/-- Declares and withdraws the service of genesis again. -/
def redeclareTx : SignedOps :=
  ⟨0, [.sdpDeclare ⟨.blendNetwork, [], 1, 9, 9000⟩ ⟨0, 0⟩, .sdpWithdraw ⟨9, ⟨3, 1⟩⟩ 0,
    .transfer ⟨.single 9001, .empty⟩ 0]⟩

def twoLifecycles : List Block :=
  [⟨1, headerAt 1, [withdrawTx]⟩, ⟨2, headerAt 35, []⟩, ⟨3, headerAt 36, [redeclareTx]⟩]

theorem messages_single_use_twoLifecycles :
    letI := Primitives.plain
    ∃ g ls s, fromGenesisTx genesisWithService .small = .ok g ∧
      Run (Step (.single .small)) g ls s ∧ messages ls = [(9, ⟨0, 1⟩), (9, ⟨3, 1⟩)] ∧
      (messages ls).Nodup := by
  let _ := Primitives.plain
  obtain ⟨s, h, -⟩ := exists_ok (x := do
      let g ← fromGenesisTx genesisWithService .small
      g.applyBlocks (.single .small) twoLifecycles) (fun _ => True) (by decide +kernel)
  obtain ⟨g, h1, h2⟩ := bind_ok h
  have hrun := applyBlocks_run h2
  exact ⟨g, _, s, h1, hrun, rfl, (messages_single_use h1 hrun).1⟩

end Logos.Ledger
