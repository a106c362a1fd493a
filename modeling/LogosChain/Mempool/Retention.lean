import LogosChain.Mempool.Invariant

/-!
# How long the pool keeps a transaction

A transaction that the pool admitted is found by its prefix, with its body in storage, until it is
released. An action either keeps the key (`act_keeps`) or has a reason (`ReleaseReason`), and so
does a run.
-/

namespace Logos.Mempool

open Base Mantle PoolItem

variable {Item Key Prefix BlockId : Type} [LinearOrder Key] [DecidableEq BlockId]
  [PoolItem Item Key Prefix BlockId] {acts acts' : List (PoolAction Item Key BlockId)}
  {pool pool' : Mempool Item Key Prefix BlockId} {key : Key} {anchor : BlockId} {slot : Nat}

/-! ## Reasons for a release -/

/-- A transaction under the key carries a claim on the block. -/
def Claim (acts : List (PoolAction Item Key BlockId)) (key : Key) (anchor : BlockId) : Prop :=
  ∃ key' item reading, PoolAction.admitItem key' item reading ∈ acts ∧
    (key' = key ∨ hash item = key) ∧ anchor ∈ anchors item

/-- The block was processed or found at the slot. -/
inductive AnchorAt (acts : List (PoolAction Item Key BlockId)) (anchor : BlockId) (slot : Nat) :
    Prop where
  | processed : .processed anchor slot ∈ acts → AnchorAt acts anchor slot
  | admission {key item reading} : .admitItem key item reading ∈ acts →
      reading.blockSlots.lookup anchor = some slot → AnchorAt acts anchor slot
  | recovery {settings currentEra reading key} : .recover settings currentEra reading ∈ acts →
      (reading.blockSlots key).lookup anchor = some slot → AnchorAt acts anchor slot

/-- A processed block reached the deadline of one of its claims. -/
def DeadlineReached (acts : List (PoolAction Item Key BlockId)) (settings : MempoolSettings)
    (key : Key) : Prop :=
  ∃ schedule anchor anchorSlot blockId slot, settings.powClaim = some schedule ∧
    Claim acts key anchor ∧ AnchorAt acts anchor anchorSlot ∧ .processed blockId slot ∈ acts ∧
    schedule.deadlineFor anchorSlot ≤ slot

/-- It is retired, and its age reached the TTL and the grace. -/
def GraceOver (pool : Mempool Item Key Prefix BlockId) (key : Key) (t now : Nat) : Prop :=
  ∃ ttl, pool.settings.txTtl = some ttl ∧ pool.removedItems.lookup key = some t ∧
    TtlPolicy.Reached (ttl + retirementGrace) now t

/-- Its block is immutable, its grace is over, or a deadline is reached. -/
def ReleaseReason (acts : List (PoolAction Item Key BlockId)) (pool : Mempool Item Key Prefix BlockId)
    (key : Key) (t : Nat) : PoolAction Item Key BlockId → Prop
  | .releaseImmutable _ libSlot _ => ∃ slot, .enter key slot ∈ acts ∧ slot ≤ libSlot
  | .release reading =>
    pool.GraceOver key t reading.now ∨ DeadlineReached acts pool.settings key
  | _ => False

/-! ## Where the data of the pool come from -/

/-- Where the data that a release reads come from. -/
structure Explained (acts : List (PoolAction Item Key BlockId))
    (pool : Mempool Item Key Prefix BlockId) : Prop where
  /-- The slot of an included item was reported with it. -/
  included : ∀ {key included}, (pool.place key).included = some included →
    .enter key included.slot ∈ acts
  /-- The body of an item is one that was admitted under its key. -/
  body : ∀ {key item}, pool.Holds key → pool.storage.lookup key = some item →
    ∃ reading, .admitItem key item reading ∈ acts
  /-- An admission time is a reading of the clock at an admission. -/
  admitted : ∀ {key t}, (pool.place key).At t →
    ∃ item reading, .admitItem key item reading ∈ acts ∧ reading.timestamp = t
  slot : ∀ {slot}, pool.evictor.slot = some slot → ∃ blockId, .processed blockId slot ∈ acts
  ttl : pool.evictor.ttl.txTtl = pool.settings.txTtl
  claims : pool.evictor.Justified pool.settings.powClaim (Claim acts) (AnchorAt acts)

omit [DecidableEq BlockId] in
theorem Claim.mono (hsub : acts ⊆ acts') (h : Claim acts key anchor) : Claim acts' key anchor := by
  obtain ⟨key', item, reading, hmem, hkey, hanchor⟩ := h
  exact ⟨key', item, reading, hsub hmem, hkey, hanchor⟩

theorem AnchorAt.mono (hsub : acts ⊆ acts')
    (h : AnchorAt acts anchor slot) : AnchorAt acts' anchor slot := by
  cases h with
  | processed hmem => exact .processed (hsub hmem)
  | admission hmem hslot => exact .admission (hsub hmem) hslot
  | recovery hmem hslot => exact .recovery (hsub hmem) hslot

theorem Explained.mono (h : Explained acts pool) (hsub : acts ⊆ acts') : Explained acts' pool where
  included hkey := hsub (h.included hkey)
  body hkey hitem := (h.body hkey hitem).imp fun _ hmem => hsub hmem
  admitted hkey := by
    obtain ⟨item, reading, hmem, ht⟩ := h.admitted hkey
    exact ⟨item, reading, hsub hmem, ht⟩
  slot hslot := (h.slot hslot).imp fun _ hmem => hsub hmem
  ttl := h.ttl
  claims := h.claims.mono (fun _ _ => Claim.mono hsub) fun _ _ => AnchorAt.mono hsub

/-- Keys move, and new slots were reported. -/
theorem Explained.of_moves (h : Explained acts pool) (hmoves : Moves pool pool')
    (hincluded : ∀ key included, (pool'.place key).included = some included →
      (pool.place key).included = some included ∨ .enter key included.slot ∈ acts) :
    Explained acts pool' where
  included hkey := (hincluded _ _ hkey).elim h.included id
  body hkey hitem := h.body ((hmoves.holds_iff _).mp hkey) (hmoves.storage ▸ hitem)
  admitted hkey := h.admitted (((hmoves.place _).at_iff _).mp hkey)
  slot hslot := h.slot (hmoves.evictor ▸ hslot)
  ttl := by rw [hmoves.evictor, hmoves.settings, h.ttl]
  claims := by
    rw [hmoves.evictor, hmoves.settings]
    exact h.claims

variable [DecidableEq Prefix] {item : Item} {reading : AdmitReading BlockId}
  {settings : MempoolSettings} {currentEra t : Nat} {a : PoolAction Item Key BlockId}
  {storage : Map Key Item} {mid : List (PoolAction Item Key BlockId)}

theorem Explained.of_released (h : Explained acts pool) {keys : List Key}
    (hreleased : Released pool pool' keys) : Explained acts pool' where
  included {key included} hkey := by
    rw [hreleased.place] at hkey
    grind [included]
  body {key item} hkey hitem := by
    obtain ⟨t, ht⟩ := hkey
    obtain ⟨hnot, ht⟩ := (hreleased.at_iff key t).mp ht
    rw [hreleased.storage, Map.lookup_foldl_erase, if_neg hnot] at hitem
    exact h.body ⟨t, ht⟩ hitem
  admitted {key t} hkey := h.admitted ((hreleased.at_iff key t).mp hkey).2
  slot hslot := by
    rw [hreleased.evictor, (Evictor.foldl_onRelease_slot keys).1] at hslot
    exact h.slot hslot
  ttl := by rw [hreleased.evictor, hreleased.settings, (Evictor.foldl_onRelease_slot keys).2, h.ttl]
  claims := by
    rw [hreleased.evictor, hreleased.settings]
    exact h.claims.foldl_onRelease keys

theorem Explained.insertItem (h : Explained acts pool) (hnew : .admitItem key item reading ∈ acts)
    (hpending : pool.pendingItems.get? key = none)
    (hincluded : pool.includedInCanonical.lookup key = none) :
    Explained acts (pool.insertItem key item reading) where
  included {k included} hk := by grind [place_insertItem, included]
  body {k item'} hk hitem := by
    have hlookup : (pool.storage.insert key item).lookup k = some item' := hitem
    rcases Map.lookup_insert_some.mp hlookup with ⟨rfl, rfl⟩ | ⟨hne, hitem⟩
    · exact ⟨reading, hnew⟩
    · obtain ⟨t, ht⟩ := hk
      rw [place_insertItem hpending hincluded, if_neg hne] at ht
      exact h.body ⟨t, ht⟩ hitem
  admitted {k t} hk := by
    rw [place_insertItem hpending hincluded] at hk
    split at hk
    · rename_i heq
      subst heq
      have ht : (pool.removedItems.lookup k).getD reading.timestamp = t := by
        simpa [Place.At] using hk
      cases hremoved : pool.removedItems.lookup k with
      | none => exact ⟨item, reading, hnew, by simpa [hremoved] using ht⟩
      | some t' =>
        have heq : t' = t := by simpa [hremoved] using ht
        exact h.admitted (heq ▸ .inr (.inl hremoved))
    · exact h.admitted hk
  slot hslot := h.slot hslot
  ttl := h.ttl
  claims := h.claims.onAdd (fun _ hanchor => ⟨key, item, reading, hnew, .inl rfl, hanchor⟩)
    fun _ _ hslot => .admission hnew hslot

/-- The evictor tracks the claims of the bodies that load. -/
theorem Explained.recovered (h : Explained acts pool) {reading : RecoverReading Key BlockId}
    (hnew : .recover settings currentEra reading ∈ acts) :
    Explained acts (recover settings currentEra pool.save pool.storage reading) := by
  have hevictor : ∀ evictor : Evictor Key BlockId,
      (recover settings currentEra pool.save pool.storage reading).evictor = evictor →
      evictor.slot = none ∧ evictor.ttl = ⟨settings.txTtl⟩ ∧
        evictor.Justified settings.powClaim (Claim acts) (AnchorAt acts) := by
    rintro evictor rfl
    unfold Mempool.recover
    cases reading.loads with
    | none => exact ⟨rfl, rfl, Evictor.justified_new _⟩
    | some loads =>
      refine List.foldlRecOn (motive := fun evictor : Evictor Key BlockId => evictor.slot = none ∧
        evictor.ttl = ⟨settings.txTtl⟩ ∧
        evictor.Justified settings.powClaim (Claim acts) (AnchorAt acts)) _ _
        ⟨rfl, rfl, Evictor.justified_new _⟩ fun evictor hevictor key hkey => ?_
      unfold addRecovered
      cases hitem : pool.storage.lookup key with
      | none => exact hevictor
      | some item =>
        dsimp only
        split
        · refine ⟨hevictor.1, hevictor.2.1, hevictor.2.2.onAdd (fun anchor hanchor => ?_)
            fun anchor slot hslot => .recovery hnew hslot⟩
          obtain ⟨reading', hmem⟩ := h.body (mem_recoveredKeys.mp hkey) hitem
          exact ⟨key, item, reading', hmem, .inr rfl, hanchor⟩
        · exact hevictor
  obtain ⟨hslot, httl, hclaims⟩ := hevictor _ rfl
  have hsettings : (recover settings currentEra pool.save pool.storage reading :
      Mempool Item Key Prefix BlockId).settings = settings := by grind [recover]
  have hstorage : (recover settings currentEra pool.save pool.storage reading :
      Mempool Item Key Prefix BlockId).storage = pool.storage := by grind [recover]
  refine ⟨fun {key included} hkey => ?_, fun {key item} hkey hitem => ?_, fun {key t} hkey => ?_,
    fun {slot} h' => ?_, by rw [httl, hsettings], by rw [hsettings]; exact hclaims⟩
  · rw [place_recover] at hkey
    exact h.included hkey
  · rw [hstorage] at hitem
    obtain ⟨t, ht⟩ := hkey
    rw [place_recover] at ht
    exact h.body ⟨t, ht⟩ hitem
  · rw [place_recover] at hkey
    exact h.admitted hkey
  · rw [hslot] at h'
    cases h'

theorem act_explained (hindexed : pool.Indexed) (hbefore : Explained acts pool)
    (ha : Acts pool a pool') : Explained (acts ++ [a]) pool' := by
  have h := hbefore.mono (List.subset_append_left _ [a])
  have hnew : a ∈ acts ++ [a] := by simp
  cases a with
  | retire key =>
    cases ha
    refine h.of_moves (retireKey_moves hindexed key) fun k included hk => .inl ?_
    rw [place_retireKey] at hk
    split at hk
    · rcases (hindexed.disjoint k).cases with hp | ⟨t, hp⟩ | ⟨t, hp⟩ | ⟨slot, t, hp⟩
      all_goals rw [hp] at hk ⊢; exact hk
    · exact hk
  | leave key =>
    cases ha
    refine h.of_moves (leaveCanonical_moves hindexed key) fun k included hk => .inl ?_
    rw [place_leaveCanonical] at hk
    split at hk
    · rcases (hindexed.disjoint k).cases with hp | ⟨t, hp⟩ | ⟨t, hp⟩ | ⟨slot, t, hp⟩
      all_goals rw [hp] at hk; cases hk
    · exact hk
  | enter key slot =>
    cases ha
    refine h.of_moves (enterCanonical_moves hindexed key slot) fun k included hk => ?_
    rw [place_enterCanonical] at hk
    split at hk
    · rename_i heq
      subst heq
      right
      rcases (hindexed.disjoint k).cases with hp | ⟨t, hp⟩ | ⟨t, hp⟩ | ⟨slot, t, hp⟩
      · rw [hp] at hk
        cases hk
      all_goals
        rw [hp] at hk
        cases hk
        exact hnew
    · exact .inl hk
  | release reading =>
    obtain ⟨keys, releases, hreleased, -, -⟩ := releaseRetained_released hindexed ha
    exact h.of_released hreleased
  | releaseImmutable visits libSlot deleted =>
    cases ha
    obtain ⟨keys, hreleased, -⟩ := releaseImmutable_released hindexed visits libSlot deleted
    exact h.of_released hreleased
  | processed blockId slot =>
    cases ha
    refine ⟨h.included, h.body, h.admitted, fun {slot'} hslot => ?_, h.ttl,
      h.claims.onProcessedBlock (.processed hnew)⟩
    cases hold : pool.evictor.slot with
    | none =>
      grind [Evictor.onProcessedBlock]
    | some current =>
      have heq : max current slot = slot' := by simpa [Evictor.onProcessedBlock, hold] using hslot
      rcases max_choice current slot with hmax | hmax
      · exact h.slot (by rw [hold, ← heq, hmax])
      · rw [hmax] at heq
        exact ⟨blockId, heq ▸ hnew⟩
  | admitItem key item reading =>
    cases ha
    grind [admitItem_cases, Explained.of_moves, Indexed.moves_self, Explained.insertItem]
  | recover settings currentEra reading => cases ha; exact h.recovered hnew
  | rotateEra era =>
    cases ha
    have hmoves : Moves pool (pool.rotateEra era) :=
      ⟨fun key => (hindexed.disjoint key).moved_self, hindexed.ordered, rfl, rfl, rfl, rfl⟩
    exact h.of_moves hmoves fun _ _ hk => .inl hk

omit [DecidableEq Prefix] in
theorem new_explained (settings : MempoolSettings) (currentEra : Nat) (storage : Map Key Item) :
    Explained [] (new settings currentEra storage : Mempool Item Key Prefix BlockId) := by
  have hnone (key : Key) : ∀ t, ¬ ((new settings currentEra storage :
      Mempool Item Key Prefix BlockId).place key).At t := by
    intro t ht
    simp [Place.At, place, new, IndexMap.get?_empty] at ht
  refine ⟨fun {key included} hkey => ?_, fun {key item} hkey _ => ?_, fun {key t} hkey => ?_,
    fun {slot} hslot => ?_, rfl, Evictor.justified_new _⟩
  · simp [place, new] at hkey
  · obtain ⟨t, ht⟩ := hkey
    exact absurd ht (hnone key t)
  · exact absurd hkey (hnone key t)
  · cases hslot

theorem run_explained (hrun : Run Acts (new settings currentEra storage) acts pool) :
    pool.Indexed ∧ Explained acts pool :=
  hrun.history (I := fun acts pool => pool.Indexed ∧ Explained acts pool)
    ⟨new_indexed settings currentEra storage, new_explained settings currentEra storage⟩
    fun _ _ _ _ hpool ha => ⟨act_indexed hpool.1 ha, act_explained hpool.1 hpool.2 ha⟩

/-! ## Keys stay until there is a reason -/

theorem At_unique {p : Place} (h : p.Apart) {t' : Nat} (ht : p.At t) (ht' : p.removed = some t') :
    t' = t := by grind [Place.At, Place.Apart.cases]

theorem act_keeps (hindexed : pool.Indexed) (h : Explained acts pool) (ha : Acts pool a pool')
    (hkey : (pool.place key).At t) : (pool'.place key).At t ∨ ReleaseReason acts pool key t a := by
  cases a with
  | retire k =>
    cases ha
    exact .inl ((((retireKey_moves hindexed k).place key).at_iff t).mpr hkey)
  | leave k =>
    cases ha
    exact .inl ((((leaveCanonical_moves hindexed k).place key).at_iff t).mpr hkey)
  | enter k slot =>
    cases ha
    exact .inl ((((enterCanonical_moves hindexed k slot).place key).at_iff t).mpr hkey)
  | release reading =>
    obtain ⟨keys, releases, hreleased, hkeys, hreleases⟩ := releaseRetained_released hindexed ha
    by_cases hmem : key ∈ keys
    · right
      rcases pool.evictor.mem_selectReleases hreleases (hkeys key hmem) with
        ⟨ttl, t', httl, ht', hreached⟩ | ⟨⟨policy, slot, deadline, hpolicy, hslot, hbucket, hle⟩, -⟩
      · obtain rfl := At_unique (hindexed.disjoint key) hkey ht'
        exact .inl ⟨ttl, h.ttl ▸ httl, ht', hreached⟩
      · obtain ⟨schedule, hschedule, hjustified⟩ := h.claims policy hpolicy
        obtain ⟨anchor, anchorSlot, hclaim, hanchor, rfl⟩ := hjustified.tracked hbucket
        obtain ⟨blockId, hprocessed⟩ := h.slot hslot
        exact .inr ⟨schedule, anchor, anchorSlot, blockId, slot, hschedule, hclaim, hanchor,
          hprocessed, hle⟩
    · exact .inl ((hreleased.at_iff key t).mpr ⟨hmem, hkey⟩)
  | releaseImmutable visits libSlot deleted =>
    cases ha
    obtain ⟨keys, hreleased, hkeys⟩ := releaseImmutable_released hindexed visits libSlot deleted
    by_cases hmem : key ∈ keys
    · obtain ⟨included, hincluded, hle⟩ := mem_immutableKeys.mp (hkeys key hmem)
      exact .inr ⟨included.slot, h.included hincluded, hle⟩
    · exact .inl ((hreleased.at_iff key t).mpr ⟨hmem, hkey⟩)
  | processed blockId slot => cases ha; exact .inl hkey
  | admitItem k item reading =>
    cases ha
    grind [place_insertItem, Place.At, place, admitItem_cases]
  | recover settings currentEra reading =>
    cases ha
    rw [place_recover]
    exact .inl hkey
  | rotateEra era => cases ha; exact .inl hkey

/-- The key is found by its prefix, with its body in storage. -/
def Resolves (pool : Mempool Item Key Prefix BlockId) (key : Key) : Prop :=
  (∃ keys, pool.byPrefix.lookup (keyPrefix Item key) = some keys ∧ key ∈ keys) ∧
    (pool.storage.lookup key).isSome

omit [DecidableEq BlockId] in
theorem Indexed.resolves (h : pool.Indexed) (hkey : (pool.place key).At t) : pool.Resolves key := by
  obtain ⟨item, hitem⟩ := h.stored ⟨t, hkey⟩
  exact ⟨h.index.mem.mpr ⟨rfl, t, hkey⟩, by rw [hitem]; rfl⟩

/-- After a run, the key is where it was admitted, or one of the actions had a reason to drop it. -/
theorem run_keeps {pool₁ pool₂ : Mempool Item Key Prefix BlockId}
    (hbefore : Run Acts (new settings currentEra storage) acts pool₁)
    (hmid : Run Acts pool₁ mid pool₂) (hkey : (pool₁.place key).At t) :
    (pool₂.place key).At t ∨ ∃ m a m' pool, mid = m ++ a :: m' ∧ Run Acts pool₁ m pool ∧
      ReleaseReason (acts ++ m) pool key t a := by
  refine (hmid.history (I := fun mid pool₂ => Run Acts pool₁ mid pool₂ ∧
    ((pool₂.place key).At t ∨ ∃ m a m' pool, mid = m ++ a :: m' ∧ Run Acts pool₁ m pool ∧
      ReleaseReason (acts ++ m) pool key t a)) ⟨.nil _, .inl hkey⟩
    fun mid s a s' ⟨hrun, hs⟩ ha => ⟨hrun.snoc ha, ?_⟩).2
  grind [run_explained, act_keeps, Run.append]

/-! ## Items that are reorged and enter again -/

omit [DecidableEq BlockId] in
/-- An item that entered is included at its slot. -/
theorem moveCanonical_place (hindexed : pool.Indexed) {entered : Map Key Nat}
    (visits : Map.Iteration entered) (reorged : List (Reorged Item BlockId))
    (hentered : entered.lookup key = some slot) (hkey : (pool.place key).At t) :
    (pool.moveCanonical visits reorged).place key = ⟨none, none, some ⟨slot, t⟩⟩ := by
  have hleft : ∀ left, left = reorged.foldl (fun pool r => pool.leaveCanonical (hash r.tx)) pool →
      left.Indexed ∧ (left.place key).At t := by
    rintro left rfl
    refine List.foldlRecOn (motive := fun pool : Mempool Item Key Prefix BlockId =>
      pool.Indexed ∧ (pool.place key).At t) reorged _ ⟨hindexed, hkey⟩ fun left hleft r _ => ?_
    grind [leaveCanonical_moves, Moves.indexed, Place.Moved.at_iff, Moves.place]
  unfold moveCanonical
  obtain ⟨hindexed', hat⟩ := hleft _ rfl
  generalize reorged.foldl (fun pool r => pool.leaveCanonical (hash r.tx)) pool = left
    at hindexed' hat ⊢
  -- The key is visited once, so the visits before and after it leave its place.
  obtain ⟨before, after, hvisits⟩ := List.append_of_mem ((visits.mem_iff key slot).mpr hentered)
  have hnodup := visits.nodup
  grind [foldl_enter_place, place_enterCanonical, Place.At.enter, Indexed.disjoint]

/-- A release or an admission leaves an included item where it is, unless a deadline is reached. -/
theorem readmission_keeps (hindexed : pool.Indexed) (h : Explained acts pool)
    (ha : Acts pool a pool') (hreadmission : Readmission a)
    (hkey : pool.place key = ⟨none, none, some ⟨slot, t⟩⟩) :
    pool'.place key = ⟨none, none, some ⟨slot, t⟩⟩ ∨ DeadlineReached acts pool.settings key := by
  cases hreadmission with
  | @release reading =>
    have hat : (pool.place key).At t := by simp [hkey, Place.At]
    rcases act_keeps hindexed h ha hat with hat' | hgrace | hdeadline
    · left
      obtain ⟨keys, releases, hreleased, -, -⟩ := releaseRetained_released hindexed ha
      rw [hreleased.place, if_neg ((hreleased.at_iff key t).mp hat').1, hkey]
    · obtain ⟨ttl, -, hremoved, -⟩ := hgrace
      have : (pool.place key).removed = some t := hremoved
      rw [hkey] at this
      cases this
    · exact .inr hdeadline
  | @admitItem k item reading =>
    left
    cases ha
    rcases pool.admitItem_cases k item reading with ⟨e, hsame⟩ | ⟨hinsert, hpending, hincluded⟩
    · rw [hsame, hkey]
    · rw [hinsert, place_insertItem hpending hincluded, if_neg, hkey]
      rintro rfl
      have : (pool.place key).included = none := hincluded
      rw [hkey] at this
      cases this

theorem readmissions_keep {pool₁ pool₂ : Mempool Item Key Prefix BlockId}
    (hbefore : Run Acts (new settings currentEra storage) acts pool₁)
    (hmid : Run Acts pool₁ mid pool₂) (hreadmission : ∀ a ∈ mid, Readmission a)
    (hkey : pool₁.place key = ⟨none, none, some ⟨slot, t⟩⟩) :
    pool₂.place key = ⟨none, none, some ⟨slot, t⟩⟩ ∨ ∃ m m' pool, mid = m ++ m' ∧
      Run Acts pool₁ m pool ∧ DeadlineReached (acts ++ m) pool.settings key := by
  induction hmid with
  | nil => exact .inl hkey
  | @snoc s s' m a hm ha ih =>
    rcases ih fun a' ha' => hreadmission a' (by simp [ha']) with hs | hdeadline
    · obtain ⟨hindexed, hexplained⟩ := run_explained (hbefore.append hm)
      grind [readmission_keeps]
    · grind

/-! ## Runs of calls -/

/-- The actions are, call by call, ones that the call can take. -/
def Unfolds (calls : List (PoolCall Item Key BlockId)) (acts : List (PoolAction Item Key BlockId)) :
    Prop :=
  ∃ parts, List.Forall₂ (fun c part => ∀ a ∈ part, PoolCall.Part c a) calls parts ∧
    parts.flatten = acts

variable [DateTimeRange]

theorem calls_unfold {calls : List (PoolCall Item Key BlockId)} (hrun : Run Step pool calls pool') :
    ∃ acts, Unfolds calls acts ∧ Run Acts pool acts pool' := by
  induction hrun with
  | nil => exact ⟨[], ⟨[], .nil, rfl⟩, .nil _⟩
  | snoc _ hc ih =>
    obtain ⟨acts, ⟨parts, hparts, rfl⟩, hacts⟩ := ih
    obtain ⟨part, hpart, hmem⟩ := call_run hc
    exact ⟨parts.flatten ++ part, ⟨parts ++ [part], List.rel_append hparts (.cons hmem .nil), by simp⟩,
      hacts.append hpart⟩

omit [DateTimeRange] in
theorem addItem_place
    (h : pool.addItem key item reading = .ok (pool', .ok ())) : ∃ t, (pool'.place key).At t := by
  obtain ⟨era, -, h⟩ := bind_ok h
  cases hlimits : era.parameters.admitItem item with
  | error e =>
    rw [hlimits] at h
    cases h
  | ok _ =>
    rw [hlimits] at h
    obtain ⟨pool₁, -, h⟩ := bind_ok h
    have hadmission : pool₁.admitItem key item reading = (pool', .ok ()) := Except.ok.inj h
    rcases pool₁.admitItem_cases key item reading with ⟨e, hsame⟩ | ⟨hinsert, hpending, hincluded⟩
    · rw [hsame] at hadmission
      cases hadmission
    · rw [hinsert] at hadmission
      cases hadmission
      rw [place_insertItem hpending hincluded, if_pos rfl]
      exact ⟨_, .inl rfl⟩

/-- **Admitted transactions stay resolvable.** A key that the pool holds is found by its prefix with
its body in storage after any further calls, unless one of their actions had a reason to release it.
An update that enters the key, reorged by it or not, leaves it with the new slot. -/
theorem resolves_until_released {settings : MempoolSettings} {currentEra : Nat}
    {storage : Map Key Item} {calls₁ calls₂ : List (PoolCall Item Key BlockId)}
    {pool₁ pool₂ : Mempool Item Key Prefix BlockId}
    (hbefore : Run Step (new settings currentEra storage) calls₁ pool₁)
    (hafter : Run Step pool₁ calls₂ pool₂) :
    (∀ key item reading pool', pool₁.addItem key item reading = .ok (pool', .ok ()) →
      ∃ t, (pool'.place key).At t) ∧
    ∃ acts₁ acts₂, Unfolds calls₁ acts₁ ∧ Unfolds calls₂ acts₂ ∧
      Run Acts (new settings currentEra storage) acts₁ pool₁ ∧ Run Acts pool₁ acts₂ pool₂ ∧
    (∀ key t, (pool₁.place key).At t →
      (∃ item reading, .admitItem key item reading ∈ acts₁ ∧ reading.timestamp = t) ∧
      ((pool₂.place key).At t ∧ pool₂.Resolves key ∨
        ∃ m a m' pool', acts₂ = m ++ a :: m' ∧ Run Acts pool₁ m pool' ∧
          ReleaseReason (acts₁ ++ m) pool' key t a)) ∧
    ∀ entered visits reorged now pool' key slot t,
      Step pool₁ (.canonicalChainUpdated entered visits reorged now) pool' →
      entered.lookup key = some slot → (pool₁.place key).At t →
      pool'.place key = ⟨none, none, some ⟨slot, t⟩⟩ ∨
        ∃ m pool'', Run Acts pool₁ m pool'' ∧
          (∀ a ∈ m, PoolCall.Part (.canonicalChainUpdated entered visits reorged now) a) ∧
          DeadlineReached (acts₁ ++ m) pool''.settings key := by
  obtain ⟨acts₁, hunfolds₁, hacts₁⟩ := calls_unfold hbefore
  obtain ⟨acts₂, hunfolds₂, hacts₂⟩ := calls_unfold hafter
  refine ⟨fun _ _ _ _ => addItem_place, acts₁, acts₂, hunfolds₁, hunfolds₂, hacts₁, hacts₂, ?_, ?_⟩
  · intro key t hkey
    refine ⟨(run_explained hacts₁).2.admitted hkey, ?_⟩
    rcases run_keeps hacts₁ hacts₂ hkey with hat | hreason
    · exact .inl ⟨hat, (run_explained (hacts₁.append hacts₂)).1.resolves hat⟩
    · exact .inr hreason
  · intro entered visits reorged now pool' key slot t hupdate hentered hkey
    obtain ⟨⟨pool₁', readmitted⟩, hreturns, rfl⟩ := map_ok hupdate
    have hmoveRun : RunOf (PoolCall.Part (.canonicalChainUpdated entered visits reorged now)) pool₁
      (pool₁.moveCanonical visits reorged) := moveCanonical_run
    obtain ⟨moves, hmoves, hmovesPart⟩ := hmoveRun
    obtain ⟨mid, hmid, hmidPart⟩ := readmissions_run hreturns
    have hplace := moveCanonical_place (run_explained hacts₁).1 visits reorged hentered hkey
    rcases readmissions_keep (hacts₁.append hmoves) hmid (fun a ha => (hmidPart a ha).2) hplace with
      hkept | ⟨m, m', pool'', rfl, hm, hdeadline⟩
    · exact .inl hkept
    · grind [Run.append]

def addOne : List (PoolCall SignedOps TxHash Hash) := [.addItem 0 ⟨7, []⟩ ⟨⟨4, true⟩, 5, ∅, .ok ()⟩]

/-- A canonical block carries the transaction at slot 3. -/
def includeOne : List (PoolCall SignedOps TxHash Hash) :=
  [.canonicalChainUpdated ((∅ : Map TxHash Nat).insert 0 3) (.ascending _) [] 8]

omit [DateTimeRange] in
/-- A transaction that is added, and then included by a block, is still found. -/
theorem resolves_after_inclusion :
    letI := Primitives.plain
    letI := DateTimeRange.utc
    ∃ pool₁ pool₂ : Mempool SignedOps TxHash Nat Hash, Run Step (new hourSettings 0 ∅) addOne pool₁ ∧
      Run Step pool₁ includeOne pool₂ ∧ pool₁.place 0 = ⟨some 5, none, none⟩ ∧
      pool₂.place 0 = ⟨none, none, some ⟨3, 5⟩⟩ ∧ pool₂.Resolves 0 := by
  let _ := Primitives.plain
  let _ := DateTimeRange.utc
  obtain ⟨⟨pool₁, pool₂⟩, hcalls, hplace₁, hplace₂⟩ := exists_ok (x := do
      let pool₁ ← addOne.foldlM call (new hourSettings 0 ∅ : Mempool SignedOps TxHash Nat Hash)
      let pool₂ ← includeOne.foldlM call pool₁
      return (pool₁, pool₂))
    (fun r => r.1.place 0 = ⟨some 5, none, none⟩ ∧ r.2.place 0 = ⟨none, none, some ⟨3, 5⟩⟩)
    (by decide +kernel)
  obtain ⟨_, h1, hrest⟩ := bind_ok hcalls
  obtain ⟨_, h2, h3⟩ := bind_ok hrest
  cases h3
  have hadd : Run Step (new hourSettings 0 ∅) addOne pool₁ := Run.of_foldlM h1
  have hinclude : Run Step pool₁ includeOne pool₂ := Run.of_foldlM h2
  obtain ⟨-, acts₁, acts₂, -, hunfolds, -, -, hkeeps, -⟩ := resolves_until_released hadd hinclude
  obtain ⟨-, ⟨-, hresolves⟩ | ⟨m, a, m', pool, rfl, -, hreason⟩⟩ := hkeeps 0 5 (by
    rw [hplace₁]
    exact .inl rfl)
  · exact ⟨pool₁, pool₂, hadd, hinclude, hplace₁, hplace₂, hresolves⟩
  · -- An update without reorged items releases nothing.
    obtain ⟨parts, hparts, hflatten⟩ := hunfolds
    cases hparts with
    | cons hpart hnone =>
      cases hnone
      rw [List.flatten_singleton] at hflatten
      cases hpart a (by simp [hflatten]) with
      | updateEnter => exact hreason.elim
      | updateLeave hr | updateRelease hr | updateAdmit hr => cases hr

end Logos.Mempool
