import LogosChain.Base.Index
import LogosChain.Mantle.Ops.Sdp

/-!
# The registrations of a service agree (`core/src/sdp/service_notes.rs`, `core/src/mantle/ops/sdp`)

The declarations of a service are stored under their ids, and the providers and the uses of the
service notes lead to them (`Registrations.Consistent`). So the `expect` of
`remove_withdrawn_declarations` finds the use that it ends.
-/

namespace Logos.Mantle

open Base Map

/-! ## Uses of the service notes -/

namespace ServiceNotes

variable {s s' : ServiceNotes} {t : ServiceType} {d : DeclarationId} {n : NoteId} {note : Note}
  {m : MinStake} {events : List HeaderEvent}

theorem user_insert (s : ServiceNotes) (n k : NoteId) (e : ServiceNote) (t : ServiceType) :
    user (s.insert n e) k t = if k = n then e.services.lookup t else s.user k t := by
  unfold user
  rw [lookup_insert_ite]
  split <;> rfl

theorem user_erase (s : ServiceNotes) (n k : NoteId) (t : ServiceType) :
    user (s.erase n) k t = if k = n then none else s.user k t := by
  unfold user
  rw [lookup_erase_ite]
  split <;> rfl

theorem user_of_lookup {e : ServiceNote} (h : s.lookup n = some e) (t : ServiceType) :
    s.user n t = e.services.lookup t := by
  simp [user, h]

theorem user_lock (h : s.lock m t d note n = .ok s') (k : NoteId)
    (t' : ServiceType) : s'.user k t' = if k = n ∧ t' = t then some d else s.user k t' := by
  obtain ⟨-, -, e, -, he, rfl⟩ := lock_ok h
  rw [user_insert, lookup_insert_ite]
  by_cases hk : k = n
  · subst hk
    have hold : s.user k t' = e.services.lookup t' := by
      rcases he with he | ⟨he, rfl⟩
      · exact user_of_lookup he t'
      · simp [user, he]
    rw [if_pos rfl, hold]
    exact if_congr ⟨fun h => ⟨rfl, h⟩, fun h => h.2⟩ rfl rfl
  · rw [if_neg hk, if_neg fun h => hk h.1]

theorem user_unlock (h : s.unlock t d n = .ok (s', note)) (k : NoteId) (t' : ServiceType) :
    s'.user k t' = if k = n ∧ t' = t then none else s.user k t' := by
  obtain ⟨e, he, -, -, rfl⟩ := unlock_ok h
  by_cases hk : k = n
  · subst hk
    have hleft : (e.services.erase t).lookup t' = if k = k ∧ t' = t then none else s.user k t' := by
      rw [lookup_erase_ite, user_of_lookup he]
      exact if_congr ⟨fun h => ⟨rfl, h⟩, fun h => h.2⟩ rfl rfl
    by_cases hempty : e.services.erase t = ∅
    · rw [if_pos hempty, user_erase, if_pos rfl, ← hleft, hempty, Finmap.lookup_empty]
    · rw [if_neg hempty, user_insert, if_pos rfl, hleft]
  · have hother : ¬ (k = n ∧ t' = t) := fun h => hk h.1
    rw [if_neg hother]
    by_cases hempty : e.services.erase t = ∅
    · rw [if_pos hempty, user_erase, if_neg hk]
    · rw [if_neg hempty, user_insert, if_neg hk]

theorem exists_unlock (h : s.user n t = some d) : ∃ s' note, s.unlock t d n = .ok (s', note) := by
  obtain ⟨e, he, hd⟩ := Option.bind_eq_some_iff.mp h
  unfold unlock
  rw [he]
  simp only [hd, ne_eq, not_true_eq_false, failIf_of_not, not_false_eq_true]
  by_cases hempty : e.services.erase t = ∅
  · exact ⟨_, _, by rw [if_pos hempty]; rfl⟩
  · exact ⟨_, _, by rw [if_neg hempty]; rfl⟩

/-- Every service note has a use. -/
def Used (s : ServiceNotes) : Prop :=
  ∀ n e, s.lookup n = some e → ∃ t d, e.services.lookup t = some d

theorem Used.empty : Used ∅ := by simp [Used]

theorem Used.lock (hs : s.Used) (h : s.lock m t d note n = .ok s') : s'.Used := by
  obtain ⟨-, -, e, -, -, rfl⟩ := lock_ok h
  intro k e' hk
  rcases lookup_insert_some.mp hk with ⟨rfl, rfl⟩ | ⟨-, hk⟩
  · exact ⟨t, d, by simp⟩
  · exact hs k e' hk

theorem Used.unlock (hs : s.Used) (h : s.unlock t d n = .ok (s', note)) : s'.Used := by
  obtain ⟨e, he, -, -, rfl⟩ := unlock_ok h
  intro k e' hk
  split at hk
  · exact hs k e' (lookup_erase_some.mp hk).2
  · rename_i hne
    rcases lookup_insert_some.mp hk with ⟨rfl, rfl⟩ | ⟨-, hk⟩
    · -- Some use is left, since the map of the uses is not empty.
      by_contra hno
      push Not at hno
      refine hne (Finmap.ext_lookup fun t' => ?_)
      rw [Finmap.lookup_empty, Option.eq_none_iff_forall_ne_some]
      exact hno t'
    · exact hs k e' hk

/-- A note serves exactly while it has a use. -/
theorem Used.contains_iff (hs : s.Used) : s.contains n = true ↔ ∃ t d, s.user n t = some d := by
  unfold contains user
  constructor
  · intro h
    obtain ⟨e, he⟩ := Option.isSome_iff_exists.mp h
    obtain ⟨t, d, hd⟩ := hs n e he
    exact ⟨t, d, by simp [he, hd]⟩
  · rintro ⟨t, d, hd⟩
    obtain ⟨e, he, -⟩ := Option.bind_eq_some_iff.mp hd
    simp [he]

/-- A service note is released exactly when an event says so. -/
structure Releases (s s' : ServiceNotes) (events : List HeaderEvent) : Prop where
  contains : ∀ n, s'.contains n = true → s.contains n = true
  events : ∀ n, (∃ t id, .sdpNoteUnlocked n t id ∈ events) ↔
    s.contains n = true ∧ s'.contains n = false

theorem Releases.of_none (h : ∀ n t id, .sdpNoteUnlocked n t id ∉ events) : Releases s s events :=
  ⟨fun _ h => h, fun n => by simp [h]⟩

theorem Releases.refl (s : ServiceNotes) : Releases s s [] := .of_none fun _ _ _ => List.not_mem_nil

theorem Releases.trans {a b c : ServiceNotes} {events' : List HeaderEvent} (h : Releases a b events)
    (h' : Releases b c events') : Releases a c (events ++ events') where
  contains := fun n hn => h.contains n (h'.contains n hn)
  events := by
    intro n
    have hsplit : (∃ t id, HeaderEvent.sdpNoteUnlocked n t id ∈ events ++ events') ↔
        (∃ t id, HeaderEvent.sdpNoteUnlocked n t id ∈ events) ∨
          ∃ t id, HeaderEvent.sdpNoteUnlocked n t id ∈ events' := by
      simp only [List.mem_append, exists_or]
    rw [hsplit, h.events, h'.events]
    have hab := h.contains n
    have hbc := h'.contains n
    cases ha : a.contains n <;> cases hb : b.contains n <;> cases hc : c.contains n <;> simp_all

/-- An unlock that ends the last use releases its note. -/
theorem Releases.unlock (hs : s.Used) (h : s.unlock t d n = .ok (s', note)) :
    Releases s s' (if s'.contains n then [] else [.sdpNoteUnlocked n t d]) := by
  have hs' := hs.unlock h
  have hn : s.contains n = true := by
    obtain ⟨e, he, -⟩ := unlock_ok h
    simp [ServiceNotes.contains, he]
  have hother : ∀ k, k ≠ n → s'.contains k = s.contains k := by
    intro k hk
    rw [Bool.eq_iff_iff, hs'.contains_iff, hs.contains_iff]
    simp [user_unlock h, hk]
  constructor
  · intro k hk
    by_cases heq : k = n
    · rw [heq]
      exact hn
    · rw [← hother k heq]
      exact hk
  · intro k
    by_cases heq : k = n
    · subst heq
      cases hafter : s'.contains k with
      | true => simp
      | false => exact ⟨fun _ => ⟨hn, rfl⟩, fun _ => ⟨t, d, List.mem_cons_self⟩⟩
    · rw [hother k heq]
      cases s.contains k <;> split <;> simp [heq]

end ServiceNotes

/-! ## Registrations -/

variable [Primitives]

namespace Registrations

/-- Declarations are under their ids, and providers and notes lead to them. -/
structure Consistent (t : ServiceType) (r : Registrations) : Prop where
  stored : ∀ id d, r.declarations.lookup id = some d → d.id = id ∧ d.serviceType = t
  providers : Indexes (fun p => r.providerIndex.lookup p) r.declarations (·.providerId)
  notes : Indexes (fun n => r.serviceNotes.user n t) r.declarations (·.serviceNoteId)

variable {t : ServiceType} {r r' : Registrations} {id : DeclarationId} {d d' : Declaration}
  {serviceNotes : ServiceNotes}

theorem Consistent.empty (h : ∀ n, serviceNotes.user n t = none) :
    Consistent t ⟨∅, ∅, serviceNotes⟩ where
  stored := by simp
  providers := .empty fun _ => by simp
  notes := .empty h

theorem Consistent.of_notes (h : r.Consistent t)
    (hn : ∀ n, serviceNotes.user n t = r.serviceNotes.user n t) :
    Consistent t { r with serviceNotes := serviceNotes } where
  stored := h.stored
  providers := h.providers
  notes := by
    show Indexes (fun n => serviceNotes.user n t) _ _
    simp only [hn]
    exact h.notes

/-- A change that keeps provider, note and id. -/
theorem Consistent.update (h : r.Consistent t) (hd : r.declarations.lookup id = some d)
    (hid : d'.id = d.id) (ht : d'.serviceType = d.serviceType) (hp : d'.providerId = d.providerId)
    (hn : d'.serviceNoteId = d.serviceNoteId) :
    Consistent t { r with declarations := r.declarations.insert id d' } where
  stored := by
    intro id' e he
    rcases lookup_insert_some.mp he with ⟨rfl, rfl⟩ | ⟨-, he⟩
    · rw [hid, ht]
      exact h.stored id' d hd
    · exact h.stored id' e he
  providers := h.providers.update hd hp
  notes := h.notes.update hd hn

end Registrations

/-! ## Declare -/

namespace SDPDeclareOp

variable {op : SDPDeclareOp} {r r' : Registrations} {note : Note} {channels : Channels}
  {minStake : MinStake} {u : Unit} {utxos : Utxos} {epoch : Nat}

/-- A checked declaration, its provider and its use are new. -/
theorem validate_new
    (h : op.validate note channels r.declarations r.providerIndex r.serviceNotes minStake = .ok u) :
    r.declarations.lookup op.id = none ∧ r.providerIndex.lookup op.providerId = none ∧
      r.serviceNotes.user op.serviceNoteId op.serviceType = none := by
  obtain ⟨_, h1, h2⟩ := bind_ok h
  obtain ⟨_, h3, h4⟩ := bind_ok h2
  obtain ⟨_, -, h5⟩ := bind_ok h4
  obtain ⟨_, -, h6⟩ := bind_ok h5
  grind [failIf_ok, Option.not_isSome_iff_eq_none, ServiceNotes.isUsedForService]

theorem execute_eq (h : op.execute r utxos epoch minStake = .ok r') :
    ∃ note, r.serviceNotes.lock minStake op.serviceType op.id note op.serviceNoteId =
        .ok r'.serviceNotes ∧
      r' = ⟨r.declarations.insert op.id (.new epoch op),
        r.providerIndex.insert op.providerId op.id, r'.serviceNotes⟩ := by
  obtain ⟨u, -, h1⟩ := bind_ok h
  obtain ⟨_, h2, h3⟩ := bind_ok h1
  cases h3
  exact ⟨u.note, lift_ok.mp h2, rfl⟩

theorem execute_declarations (h : op.execute r utxos epoch minStake = .ok r') :
    r'.declarations = r.declarations.insert op.id (.new epoch op) := by
  obtain ⟨_, -, hr⟩ := execute_eq h
  rw [hr]

/-- A checked declaration keeps the registrations consistent. -/
theorem consistent_execute {minStake' : MinStake} (hc : r.Consistent op.serviceType)
    (hv : op.validate note channels r.declarations r.providerIndex r.serviceNotes minStake = .ok u)
    (h : op.execute r utxos epoch minStake' = .ok r') : r'.Consistent op.serviceType := by
  obtain ⟨hid, hprovider, huse⟩ := validate_new hv
  obtain ⟨_, hlock, heq⟩ := execute_eq h
  rw [heq]
  refine ⟨?_, ?_, ?_⟩
  · intro id d hd
    rcases lookup_insert_some.mp hd with ⟨rfl, rfl⟩ | ⟨-, hd⟩
    · exact ⟨rfl, rfl⟩
    · exact hc.stored id d hd
  · exact hc.providers.insert hid hprovider fun p => lookup_insert_ite _ _ _ _
  · refine hc.notes.insert hid huse fun n => ?_
    rw [ServiceNotes.user_lock hlock]
    grind [Declaration.new]

end SDPDeclareOp

/-! ## Removal -/

section

variable {ε : Type} {t : ServiceType} {r : Registrations} {epoch : Nat}
  {p : Registrations × List HeaderEvent} {e : DeclarationId × Declaration}

/-- The removal on its way: what is left to remove is there. -/
structure Removing (t : ServiceType) (epoch : Nat) (r : Registrations)
    (p : Registrations × List HeaderEvent) (remaining : List (DeclarationId × Declaration)) : Prop where
  consistent : p.1.Consistent t
  used : p.1.serviceNotes.Used
  /-- The ids of what is left to remove differ. -/
  nodup : (remaining.map (·.1)).Nodup
  left : ∀ e ∈ remaining, p.1.declarations.lookup e.1 = some e.2 ∧ e.2.withdrawnBefore epoch = true
  declarations : ∀ id d, p.1.declarations.lookup id = some d ↔
    r.declarations.lookup id = some d ∧ (d.withdrawnBefore epoch = true → (id, d) ∈ remaining)
  /-- The uses for other services stay. -/
  others : ∀ n t', t' ≠ t → p.1.serviceNotes.user n t' = r.serviceNotes.user n t'
  releases : r.serviceNotes.Releases p.1.serviceNotes p.2

theorem Removing.start (hc : r.Consistent t) (hu : r.serviceNotes.Used) :
    Removing t epoch r (r, []) ((toList r.declarations).filter (·.2.withdrawnBefore epoch)) where
  consistent := hc
  used := hu
  nodup := (nodup_toList r.declarations).sublist (List.filter_sublist.map _)
  left := fun e he => by simpa [mem_toList] using he
  declarations := by grind [mem_toList]
  others := fun _ _ _ => rfl
  releases := .refl _

theorem removeDeclaration_ok (hc : p.1.Consistent t) (hu : p.1.serviceNotes.Used)
    (he : p.1.declarations.lookup e.1 = some e.2) :
    ∃ notes note, p.1.serviceNotes.unlock t e.1 e.2.serviceNoteId = .ok (notes, note) ∧
      (removeDeclaration p e : Result ε _) =
        .ok (⟨p.1.declarations.erase e.1, p.1.providerIndex.erase e.2.providerId, notes⟩,
          p.2 ++ if notes.contains e.2.serviceNoteId then []
            else [.sdpNoteUnlocked e.2.serviceNoteId t e.1]) ∧
      Registrations.Consistent t
        ⟨p.1.declarations.erase e.1, p.1.providerIndex.erase e.2.providerId, notes⟩ ∧
      notes.Used := by
  obtain ⟨-, ht⟩ := hc.stored e.1 e.2 he
  obtain ⟨notes, note, hunlock⟩ := ServiceNotes.exists_unlock (hc.notes.of_lookup he)
  refine ⟨notes, note, hunlock, ?_, ⟨?_, ?_, ?_⟩, hu.unlock hunlock⟩
  · unfold removeDeclaration
    rw [ht, hunlock]
    rfl
  · intro id d hd
    exact hc.stored id d (lookup_erase_some.mp hd).2
  · exact hc.providers.erase he fun p => lookup_erase_ite _ _ _
  · refine hc.notes.erase he fun n => ?_
    rw [ServiceNotes.user_unlock hunlock]
    by_cases hn : n = e.2.serviceNoteId <;> simp [hn]

theorem Removing.step {remaining : List (DeclarationId × Declaration)}
    (h : Removing t epoch r p (e :: remaining)) :
    ∃ p', (removeDeclaration p e : Result ε _) = .ok p' ∧ Removing t epoch r p' remaining := by
  obtain ⟨hnot, hnodup⟩ := List.nodup_cons.mp h.nodup
  obtain ⟨he, hw⟩ := h.left e List.mem_cons_self
  obtain ⟨notes, note, hunlock, heq, hc, hu⟩ :=
    removeDeclaration_ok (ε := ε) h.consistent h.used he
  refine ⟨_, heq, hc, hu, hnodup, ?_, ?_, ?_, h.releases.trans (.unlock h.used hunlock)⟩
  · intro e' he'
    grind [left, lookup_erase_some]
  · grind [lookup_erase_some, declarations]
  · grind

/-- Exactly those withdrawn before the epoch go, and notes that serve no other are released. -/
theorem removeWithdrawnDeclarations_spec (hc : r.Consistent t) (hu : r.serviceNotes.Used)
    (epoch : Nat) :
    ∃ p, (removeWithdrawnDeclarations r epoch : Result ε _) = .ok p ∧ Removing t epoch r p [] :=
  foldlM_total (.start hc hu) fun _ _ _ h => h.step

end

end Logos.Mantle
