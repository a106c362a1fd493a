import LogosChain.Base.Run
import LogosChain.Ledger.Rewards

/-!
# How the income of the Blend network is distributed

The code goes through the proofs and the rewards of an epoch in orders of hash maps that depend on
the machine. The notes of the rewards depend on neither order, nor on the order of the proofs, as
long as the providers have different keys.
-/

namespace Logos.Ledger

open Base Mantle List

variable [Primitives]

/-! ## Orders of the hash maps -/

def TargetEpochTracker.rewardsIn (t : TargetEpochTracker) (order : Map.Iteration t.submittedProofs)
    (epochIncome : Nat) : Map ZkPublicKey Nat :=
  let baseReward := epochIncome / (t.submittedProofs.keys.card + t.closest.card)
  order.entries.foldl (fun rewards e =>
    rewards.insert e.2.1 (if e.1 ∈ t.closest then baseReward * 2 else baseReward)) ∅

/-- The notes for rewards that are read in some order. -/
def distributeRewardsIn {rewards : Map ZkPublicKey Nat} (order : Map.Iteration rewards)
    (epoch : Nat) (serviceType : ServiceType) : List Utxo :=
  ((order.entries.filter (0 < ·.2)).insertionSort fun a b => a.1 ≤ b.1).mapIdx fun index r =>
    ⟨Primitives.rewardOpId epoch serviceType, index, ⟨r.2, r.1⟩⟩

/-- The notes of the target epoch. -/
def TargetEpochTracker.finalizeIn (t : TargetEpochTracker) (target : TargetEpochState)
    (order : Map.Iteration t.submittedProofs)
    (order' : Map.Iteration (t.rewardsIn order target.epochIncome)) : List Utxo :=
  if t.submittedProofs = ∅ then []
  else distributeRewardsIn order' target.epoch .blendNetwork

theorem TargetEpochTracker.finalizeIn_ascending (t : TargetEpochTracker)
    (target : TargetEpochState) :
    t.finalizeIn target (.ascending _) (.ascending _) = t.finalize target := by
  unfold finalizeIn finalize
  split
  · rfl
  · unfold distributeRewardsIn distributeRewards
    have hsorted : ((Map.toList (t.rewards target.epochIncome)).filter (0 < ·.2)).Pairwise
        fun a b => a.1 ≤ b.1 :=
      ((Map.pairwise_toList _).imp fun h => h.le).sublist filter_sublist
    rw [← hsorted.insertionSort_eq]
    rfl

/-! ## Proofs -/

/-- An accepted proof: its provider, key and distance. -/
structure Submission where
  provider : ProviderId
  zkId : ZkPublicKey
  distance : Nat
deriving DecidableEq

/-- Adds an accepted proof. -/
def TargetEpochTracker.submit (epoch : Nat) (t : TargetEpochTracker) (p : Submission) :
    Except RewardsError TargetEpochTracker := t.insert p.provider epoch p.zkId p.distance

/-- The proofs that came closest. -/
def premium (subs : List Submission) : List Submission :=
  subs.filter fun p => decide (∀ q ∈ subs, p.distance ≤ q.distance)

omit [Primitives] in
theorem mem_premium {subs : List Submission} {p : Submission} :
    p ∈ premium subs ↔ p ∈ subs ∧ ∀ q ∈ subs, p.distance ≤ q.distance := by
  simp [premium]

/-- The reward of one part. -/
def baseReward (subs : List Submission) (epochIncome : Nat) : Nat :=
  epochIncome / (subs.length + (premium subs).length)

/-- What a proof is worth. -/
def rewardOf (subs : List Submission) (epochIncome : Nat) (p : Submission) : Nat :=
  if p ∈ premium subs then 2 * baseReward subs epochIncome else baseReward subs epochIncome

/-- What a tracker knows of the proofs so far. -/
structure TargetEpochTracker.Tracks (t : TargetEpochTracker) (subs : List Submission) : Prop where
  nodup : (subs.map (·.provider)).Nodup
  lookup : ∀ k v, t.submittedProofs.lookup k = some v ↔
    ∃ p ∈ subs, p.provider = k ∧ (p.zkId, p.distance) = v
  least : ∀ p ∈ subs, t.minDistance ≤ p.distance
  sentinel : subs = [] → t.minDistance = 2 ^ 64 - 1
  closest : ∀ k, k ∈ t.closest ↔ ∃ p ∈ subs, p.provider = k ∧ p.distance = t.minDistance
  attained : subs ≠ [] → ∃ p ∈ subs, p.distance = t.minDistance

namespace TargetEpochTracker

variable {t t' : TargetEpochTracker} {subs subs' : List Submission} {target : TargetEpochState}
  {epoch : Nat} {p : Submission}

omit [Primitives]

theorem Tracks.new : new.Tracks [] where
  nodup := nodup_nil
  lookup := by simp [TargetEpochTracker.new]
  least := by simp
  sentinel _ := rfl
  closest := by simp [TargetEpochTracker.new]
  attained h := absurd rfl h

/-- The next proof resets the closest providers, joins them or leaves them as they are. -/
theorem Tracks.submit (h : t.Tracks subs) (hp : p.distance < 2 ^ 64)
    (hok : t.submit epoch p = .ok t') : t'.Tracks (subs ++ [p]) := by
  obtain ⟨hnodup, hlookup, hleast, hsentinel, hclosest, hattained⟩ := h
  obtain ⟨_, hnew, h1⟩ := bind_ok hok
  cases h1
  have hfresh : ∀ q ∈ subs, q.provider ≠ p.provider := fun q hq heq =>
    failIf_ok.mp hnew (by rw [(hlookup p.provider _).mpr ⟨q, hq, heq, rfl⟩]; rfl)
  have hlookup' : ∀ k v, (t.submittedProofs.insert p.provider (p.zkId, p.distance)).lookup k =
      some v ↔ ∃ q ∈ subs ++ [p], q.provider = k ∧ (q.zkId, q.distance) = v := by
    intro k v
    rw [Map.lookup_insert_some, hlookup]
    grind
  have hnodup' : ((subs ++ [p]).map (·.provider)).Nodup := by grind
  unfold withUpdate
  -- Before the first proof the least distance is the largest number, which a proof may have too.
  split
  · exact ⟨hnodup', hlookup', by grind, by simp, by grind, by grind⟩
  · split
    · exact ⟨hnodup', hlookup', by grind, by simp, by grind, by grind⟩
    · have hsubs : subs ≠ [] := fun hnil => by
        have := hsentinel hnil
        omega
      exact ⟨hnodup', hlookup', by grind, by simp, by grind, by grind⟩

theorem Tracks.of_submissions (hd : ∀ p ∈ subs, p.distance < 2 ^ 64)
    (h : subs.foldlM (TargetEpochTracker.submit epoch) .new = .ok t) : t.Tracks subs := by
  refine (Run.of_foldlM h).history (I := fun seen t => seen <+: subs → t.Tracks seen)
    (fun _ => .new) (fun seen t p t' ih hstep hpre => ?_) (prefix_refl _)
  grind [prefix_append, submit, List.IsPrefix.trans]

/-! ## Rewards -/

variable (h : t.Tracks subs)
include h

/-- The closest providers are those of the least distance. -/
theorem Tracks.mem_closest (hp : p ∈ subs) : p.provider ∈ t.closest ↔ p ∈ premium subs := by
  rw [h.closest, mem_premium]
  constructor
  · rintro ⟨q, hq, hk, hd⟩
    obtain rfl : q = p := inj_on_of_nodup_map h.nodup hq hp hk
    exact ⟨hp, fun q hq => hd ▸ h.least q hq⟩
  · grind [ne_nil_of_mem, Nat.le_antisymm, attained, least]

theorem Tracks.card_proofs : t.submittedProofs.keys.card = subs.length := by
  have hkeys : t.submittedProofs.keys = (subs.map (·.provider)).toFinset := by
    ext k
    rw [Finmap.mem_keys, Finmap.mem_iff, mem_toFinset, mem_map]
    constructor
    · grind [lookup]
    · rintro ⟨p, hp, hk⟩
      exact ⟨_, (h.lookup k _).mpr ⟨p, hp, hk, rfl⟩⟩
  rw [hkeys, toFinset_card_of_nodup h.nodup, length_map]

theorem Tracks.card_closest : t.closest.card = (premium subs).length := by
  have hclosest : t.closest = ((premium subs).map (·.provider)).toFinset := by
    grind [mem_toFinset, closest, mem_closest, mem_premium]
  grind [premium, toFinset_card_of_nodup, filter_sublist, nodup]

/-- The rewards are the same for every order of the proofs. -/
theorem Tracks.lookup_rewardsIn (hzk : (subs.map (·.zkId)).Nodup)
    (order : Map.Iteration t.submittedProofs) (epochIncome : Nat) (k : ZkPublicKey) (v : Nat) :
    (t.rewardsIn order epochIncome).lookup k = some v ↔
      ∃ p ∈ subs, p.zkId = k ∧ rewardOf subs epochIncome p = v := by
  have hentry : ∀ e ∈ order.entries, ∃ p ∈ subs, e = (p.provider, p.zkId, p.distance) := by
    grind [lookup, Map.Iteration.mem_iff]
  have hreward : ∀ p ∈ subs, (if p.provider ∈ t.closest then
      epochIncome / (t.submittedProofs.keys.card + t.closest.card) * 2
      else epochIncome / (t.submittedProofs.keys.card + t.closest.card)) =
        rewardOf subs epochIncome p := by
    grind [rewardOf, baseReward, mem_closest, card_proofs, card_closest]
  unfold rewardsIn
  rw [Map.lookup_foldl_insert_of_eq fun a ha b hb hab => ?_]
  · constructor
    · grind
    · rintro ⟨p, hp, rfl, rfl⟩
      have hmem := (order.mem_iff p.provider (p.zkId, p.distance)).mpr
        ((h.lookup _ _).mpr ⟨p, hp, rfl, rfl⟩)
      exact ⟨_, hmem, rfl, hreward p hp⟩
  · -- Two entries with one key are of one provider.
    grind [inj_on_of_nodup_map]

end TargetEpochTracker

/-- The notes of some submissions, in the order of the keys. -/
def rewardNotes (target : TargetEpochState) (subs : List Submission) : List Utxo :=
  (((subs.map fun p => (p.zkId, rewardOf subs target.epochIncome p)).filter
    (0 < ·.2)).insertionSort fun a b => a.1 ≤ b.1).mapIdx fun index r =>
      ⟨Primitives.rewardOpId target.epoch .blendNetwork, index, ⟨r.2, r.1⟩⟩

variable {t t' : TargetEpochTracker} {subs subs' : List Submission} {target : TargetEpochState}

omit [Primitives] in
theorem nodup_rewards (hzk : (subs.map (·.zkId)).Nodup) (epochIncome : Nat) :
    ((subs.map fun p => (p.zkId, rewardOf subs epochIncome p)).map (·.1)).Nodup := by
  rw [map_map]
  exact hzk

/-- Whatever the orders of the maps are, the notes are those of the submissions. -/
theorem TargetEpochTracker.Tracks.finalizeIn (h : t.Tracks subs) (hne : subs ≠ [])
    (hzk : (subs.map (·.zkId)).Nodup) (order : Map.Iteration t.submittedProofs)
    (order' : Map.Iteration (t.rewardsIn order target.epochIncome)) :
    t.finalizeIn target order order' = rewardNotes target subs := by
  have hproofs : t.submittedProofs ≠ ∅ := by
    obtain ⟨p, hp⟩ := exists_mem_of_ne_nil subs hne
    intro hempty
    have hp' := (h.lookup p.provider _).mpr ⟨p, hp, rfl, rfl⟩
    rw [hempty] at hp'
    simp at hp'
  have hperm : order'.entries.Perm
      (subs.map fun p => (p.zkId, rewardOf subs target.epochIncome p)) := by
    grind [Map.Iteration.perm, lookup_rewardsIn]
  unfold TargetEpochTracker.finalizeIn distributeRewardsIn rewardNotes
  rw [if_neg hproofs]
  have hnodup : ((order'.entries.filter (0 < ·.2)).map (·.1)).Nodup :=
    order'.nodup.sublist (filter_sublist.map _)
  rw [Map.insertionSort_eq_of_perm (hperm.filter _) hnodup]

/-! ## Amounts -/

omit [Primitives] in
theorem premium_perm (h : subs'.Perm subs) : (premium subs').Perm (premium subs) := by
  have hsame : (fun p : Submission => decide (∀ q ∈ subs', p.distance ≤ q.distance)) =
      fun p => decide (∀ q ∈ subs, p.distance ≤ q.distance) := by
    funext p
    simp only [h.mem_iff]
  unfold premium
  rw [hsame]
  exact h.filter _

omit [Primitives] in
theorem rewardOf_perm (h : subs'.Perm subs) (epochIncome : Nat) :
    rewardOf subs' epochIncome = rewardOf subs epochIncome := by
  grind [premium_perm, rewardOf, baseReward, List.Perm.length_eq]

theorem rewardNotes_perm (h : subs'.Perm subs) (hzk : (subs.map (·.zkId)).Nodup) :
    rewardNotes target subs' = rewardNotes target subs := by
  unfold rewardNotes
  rw [rewardOf_perm h]
  have hperm := (h.map fun p => (p.zkId, rewardOf subs target.epochIncome p)).filter
    fun e => decide (0 < e.2)
  have hnodup := nodup_rewards ((h.map Submission.zkId).nodup_iff.mpr hzk) target.epochIncome
  rw [rewardOf_perm h] at hnodup
  rw [Map.insertionSort_eq_of_perm hperm (hnodup.sublist (filter_sublist.map _))]

/-- The notes are the rewards that are not zero. -/
theorem rewardNotes_entries (target : TargetEpochState) (subs : List Submission) :
    ((rewardNotes target subs).map fun u => (u.note.pk, u.note.value)).Perm
      ((subs.map fun p => (p.zkId, rewardOf subs target.epochIncome p)).filter (0 < ·.2)) := by
  unfold rewardNotes
  rw [mapIdx_eq_zipIdx_map, map_map]
  show (List.map Prod.fst _).Perm _
  rw [zipIdx_map_fst]
  exact perm_insertionSort _ _

omit [Primitives] in
theorem sum_filter_pos (l : List (ZkPublicKey × Nat)) :
    ((l.filter (0 < ·.2)).map (·.2)).sum = (l.map (·.2)).sum := by
  induction l with
  | nil => rfl
  | cons e l ih => grind

omit [Primitives] in
/-- One part for each submission and one for each of the closest. -/
theorem sum_rewardOf (subs : List Submission) (epochIncome : Nat) :
    (subs.map (rewardOf subs epochIncome)).sum =
      baseReward subs epochIncome * (subs.length + (premium subs).length) := by
  have hsplit : ∀ (b : Nat) (q : Submission → Bool) (l : List Submission),
      (l.map fun p => if q p then 2 * b else b).sum = b * (l.length + (l.filter q).length) := by
    intro b q l
    induction l with
    | nil => rfl
    | cons p l ih => grind
  unfold premium
  rw [← hsplit]
  refine congrArg List.sum (map_congr_left fun p hp => ?_)
  unfold rewardOf
  simp only [mem_premium, hp, true_and, decide_eq_true_eq]

/-- What the notes pay to a key. -/
def paidTo (notes : List Utxo) (pk : ZkPublicKey) : Nat :=
  ((notes.filter fun u => decide (u.note.pk = pk)).map (·.note.value)).sum

omit [Primitives] in
theorem filter_key {l : List (ZkPublicKey × Nat)} (hl : (l.map (·.1)).Nodup) {k : ZkPublicKey}
    {v : Nat} (h : (k, v) ∈ l) : l.filter (fun e => decide (e.1 = k)) = [(k, v)] := by
  have hnodup := (List.Nodup.of_map _ hl).filter fun e => decide (e.1 = k)
  refine perm_singleton.mp ((perm_ext_iff_of_nodup hnodup (by simp)).mpr fun e => ?_)
  simp only [mem_filter, decide_eq_true_eq, mem_singleton]
  grind [inj_on_of_nodup_map]

theorem paidTo_rewardNotes (hzk : (subs.map (·.zkId)).Nodup) {p : Submission} (hp : p ∈ subs) :
    paidTo (rewardNotes target subs) p.zkId = rewardOf subs target.epochIncome p := by
  have hentry : (p.zkId, rewardOf subs target.epochIncome p) ∈
      subs.map fun p => (p.zkId, rewardOf subs target.epochIncome p) := mem_map_of_mem hp
  have hnotes : paidTo (rewardNotes target subs) p.zkId =
      ((((rewardNotes target subs).map fun u => (u.note.pk, u.note.value)).filter
        fun e => decide (e.1 = p.zkId)).map (·.2)).sum := by
    rw [filter_map, map_map]
    rfl
  rw [hnotes, (((rewardNotes_entries target subs).filter _).map _).sum_eq, filter_comm,
    filter_key (nodup_rewards hzk _) hentry, sum_filter_pos]
  exact sum_singleton

/-- Every provider with an accepted proof gets the base reward, and twice that exactly if its token
came closest; and the notes are the same for every order of the proofs. -/
theorem blend_rewards_distributed {target : TargetEpochState} (hne : subs ≠ [])
    (hzk : (subs.map (·.zkId)).Nodup) (hd : ∀ p ∈ subs, p.distance < 2 ^ 64)
    (h : subs.foldlM (TargetEpochTracker.submit target.epoch) .new = .ok t)
    (order : Map.Iteration t.submittedProofs)
    (order' : Map.Iteration (t.rewardsIn order target.epochIncome)) :
    (∀ p ∈ subs, paidTo (t.finalizeIn target order order') p.zkId =
      if ∀ q ∈ subs, p.distance ≤ q.distance
      then 2 * (target.epochIncome / (subs.length + (premium subs).length))
      else target.epochIncome / (subs.length + (premium subs).length)) ∧
    (∀ u ∈ t.finalizeIn target order order', ∃ p ∈ subs, u.note.pk = p.zkId) ∧
    ((t.finalizeIn target order order').map (·.note.value)).sum ≤ target.epochIncome ∧
    target.epochIncome < ((t.finalizeIn target order order').map (·.note.value)).sum +
      (subs.length + (premium subs).length) ∧
    ∀ (subs' : List Submission) (t' : TargetEpochTracker) order₁ order₂, subs'.Perm subs →
      subs'.foldlM (TargetEpochTracker.submit target.epoch) .new = .ok t' →
      t'.finalizeIn target order₁ order₂ = t.finalizeIn target order order' := by
  have htracks := TargetEpochTracker.Tracks.of_submissions hd h
  rw [htracks.finalizeIn hne hzk order order']
  have hentries := rewardNotes_entries target subs
  have hsum : ((rewardNotes target subs).map (·.note.value)).sum =
      baseReward subs target.epochIncome * (subs.length + (premium subs).length) := by
    rw [← sum_rewardOf]
    have := (hentries.map (·.2)).sum_eq
    rw [sum_filter_pos, map_map, map_map] at this
    exact this
  have hpos : 0 < subs.length + (premium subs).length :=
    Nat.lt_of_lt_of_le (length_pos_iff.mpr hne) (Nat.le_add_right _ _)
  refine ⟨fun p hp => ?_, fun u hu => ?_, ?_, ?_, fun subs' t' order₁ order₂ hperm h' => ?_⟩
  · grind [paidTo_rewardNotes, rewardOf, baseReward, mem_premium]
  · grind [mem_map_of_mem]
  · rw [hsum]
    exact Nat.div_mul_le_self _ _
  · have := Nat.lt_mul_div_succ target.epochIncome hpos
    rw [Nat.mul_add, Nat.mul_one, Nat.mul_comm] at this
    rw [hsum]
    exact this
  · have hd' : ∀ p ∈ subs', p.distance < 2 ^ 64 := fun p hp => hd p (hperm.mem_iff.mp hp)
    have hne' : subs' ≠ [] := fun hnil => hne (hnil ▸ hperm).nil_eq.symm
    rw [(TargetEpochTracker.Tracks.of_submissions hd' h').finalizeIn hne'
      ((hperm.map Submission.zkId).nodup_iff.mpr hzk), rewardNotes_perm hperm hzk]

def targetOf104 : TargetEpochState := ⟨4, ∅, 1, ⟨1, 8⟩, ⟨0, 0, 0, 0, 0, 0, 0, 0, 0⟩, 104⟩

def threeProofs : List Submission := [⟨1, 30, 5⟩, ⟨2, 10, 3⟩, ⟨3, 20, 3⟩]

omit [Primitives] in
/-- The closest of three get forty, the other one twenty. -/
theorem blend_rewards_distributed_three :
    letI := Primitives.plain
    ∃ t, threeProofs.foldlM (TargetEpochTracker.submit targetOf104.epoch) .new = .ok t ∧
      ∀ order order', paidTo (t.finalizeIn targetOf104 order order') 10 = 40 ∧
        paidTo (t.finalizeIn targetOf104 order order') 20 = 40 ∧
        paidTo (t.finalizeIn targetOf104 order order') 30 = 20 := by
  let _ := Primitives.plain
  obtain ⟨t, h, -⟩ := exists_ok
    (x := threeProofs.foldlM (TargetEpochTracker.submit targetOf104.epoch) .new)
    (fun _ => True) (by decide +kernel)
  refine ⟨t, h, fun order order' => ?_⟩
  have hpaid := (blend_rewards_distributed (by decide) (by decide) (by decide) h order order').1
  exact ⟨hpaid ⟨2, 10, 3⟩ (by decide), hpaid ⟨3, 20, 3⟩ (by decide), hpaid ⟨1, 30, 5⟩ (by decide)⟩

end Logos.Ledger
