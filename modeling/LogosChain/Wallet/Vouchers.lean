import LogosChain.Ledger.Snapshots
import LogosChain.Wallet.State

/-!
# The paths of the vouchers (`wallet/src/lib.rs`, `ledger/src/mantle/leader.rs`)

Wallet and ledger add the voucher of every block to a range of their own. At the first block of an
epoch each takes a snapshot before: the ledger of the root that claims are checked against, the
wallet of its paths.
-/

namespace Logos.Wallet

open Base Mantle Ledger Mmr ArrayTree LedgerState Primitives Function

variable [Primitives] {m m' : MerkleMountainRange VoucherCm} {a : Nat → Fr} {n : Nat}
  {cm : VoucherCm} {eras : EraScheduledConfig} {s s' : LedgerState} {ls : List Action}
  {l l' : LeaderState} {KeyId VoucherId : Type} {knownKeys : Map ZkPublicKey KeyId}
  {w w' : WalletState}

/-! ## Ranges and paths -/

/-- The range has the first `n` items of an array. -/
structure RangeOf (m : MerkleMountainRange VoucherCm) (a : Nat → Fr) (n : Nat) : Prop where
  peaks : Peaks compress a 0 n m.roots
  rest : ∀ i, n ≤ i → a i = 0
  bound : n ≤ 2 ^ 32

/-- The siblings of a path are those of the tree over the array. -/
structure Leads (a : Nat → Fr) (n : Nat) (cm : VoucherCm) (path : MerklePath Fr) : Prop where
  index : path.leafIndex < n
  leaf : a path.leafIndex = cm
  length : path.siblings.length = 32
  siblings : TrueSiblings compress a 0 path.leafIndex path.siblings

theorem RangeOf.frontierRoot (h : RangeOf m a n) : m.frontierRoot compress 0 = root compress 32 a :=
  frontierRoot_ledger (frontierRoot_ok h.peaks h.rest (by decide) (by decide) h.bound)

theorem Leads.verify {path : MerklePath Fr} (h : Leads a n cm path) (hm : RangeOf m a n) :
    path.verify compress cm (m.frontierRoot compress 0) = true := by
  have hclimb := climb_trueSiblings h.siblings
  rw [h.length, node_zero, h.leaf, Nat.zero_add, Nat.div_eq_of_lt (h.index.trans_le hm.bound),
    ← root_eq_node] at hclimb
  refine decide_eq_true ?_
  rw [MerklePath.root_eq_climb, hm.frontierRoot]
  exact hclimb

theorem push_some (hpush : m.push compress cm = some m') :
    m.roots.head?.map (·.height) ≠ some 33 ∧
      m' = ⟨MerkleMountainRange.mergePeaks compress m.roots ⟨cm, 1⟩⟩ := by
  unfold MerkleMountainRange.push at hpush
  split at hpush
  · cases hpush
  · next hopen => exact ⟨hopen, (Option.some.inj hpush).symm⟩

theorem RangeOf.push (h : RangeOf m a n) (hpush : m.push compress cm = some m') :
    n < 2 ^ 32 ∧ RangeOf m' (update a n cm) (n + 1) := by
  have hlt : n < 2 ^ 32 := by
    refine lt_of_le_of_ne h.bound fun hfull => ?_
    exact (push_some hpush).1 ((h.peaks.head_height (k := 32) h.bound).mpr hfull)
  obtain ⟨m₁, hm₁, hpeaks⟩ : ∃ m₁, Mmr.push compress 33 m cm = .ok m₁ ∧
      Peaks compress (update a n cm) 0 (n + 1) m₁.roots :=
    push_ok cm h.peaks (by decide) hlt
  cases (push_ledger hm₁).symm.trans hpush
  refine ⟨hlt, hpeaks, fun i hi => ?_, hlt⟩
  rw [update_of_ne (Nat.ne_of_gt hi)]
  exact h.rest i (Nat.le_of_succ_le hi)

/-- Pushing with paths gives the range of a plain push. -/
theorem RangeOf.pushWithPaths (h : RangeOf m a n) (hlt : n < 2 ^ 32)
    (hpush : m.push compress cm = some m') {tracked : List (VoucherCm × MerklePath Fr)}
    (htracked : ∀ t ∈ tracked, Leads a n t.1 t.2) :
    ∃ path paths, Mmr.pushWithPaths compress 0 33 m cm (tracked.map (·.2)) =
        (.ok (m', path), paths) ∧
      Leads (update a n cm) (n + 1) cm path ∧
      List.Forall₂ (fun t p => Leads (update a n cm) (n + 1) t.1 p) tracked paths := by
  have hpaths : ∀ p ∈ tracked.map (·.2), p.leafIndex ≠ n ∧ p.siblings.length = 33 - 1 := by
    rintro p hp
    obtain ⟨t, ht, rfl⟩ := List.mem_map.mp hp
    exact ⟨(htracked t ht).index.ne, (htracked t ht).length⟩
  obtain ⟨hopen, hm'⟩ := push_some hpush
  have hlen : m.len = n := by simpa [MerkleMountainRange.len] using h.peaks.len_eq
  have hcheck : checkPaths 33 m (tracked.map (·.2)) = .ok () := by
    refine (checkPaths_ok (by decide) (by decide)).mpr ⟨hopen, fun p hp => ?_⟩
    obtain ⟨t, ht, rfl⟩ := List.mem_map.mp hp
    exact ⟨(htracked t ht).length, hlen ▸ (htracked t ht).index⟩
  obtain ⟨roots, last, hmerge, hupdate⟩ := pushUpdating_spec cm (by decide) (by decide) h.peaks
    h.rest hlt hpaths
  rw [mergePeaks_ledger hmerge] at hm'
  unfold Mmr.pushWithPaths
  rw [hcheck]
  rw [hupdate, hm']
  refine ⟨_, _, rfl, ⟨Nat.lt_succ_self n, update_self .., ?_, newPathAt_trueSiblings _⟩, ?_⟩
  · simp [newPathAt, newSiblings]
  · rw [List.map_map, List.forall₂_map_right_iff]
    refine List.forall₂_same.mpr fun t ht => ?_
    have hleads := htracked t ht
    have hsiblings := retarget_trueSiblings cm hleads.index.ne hleads.siblings
    rw [hleads.length] at hsiblings
    refine ⟨?_, ?_, retarget_length.trans hleads.length, ?_⟩
    · exact retarget_leafIndex.trans_lt (hleads.index.trans (Nat.lt_succ_self n))
    · rw [comp_apply, retarget_leafIndex, update_of_ne hleads.index.ne]
      exact hleads.leaf
    · rw [comp_apply, retarget_leafIndex]
      exact hsiblings

/-! ## The ledger -/

/-- The leaders keep their vouchers, snapshot and epoch. -/
structure SameVouchers (l l' : LeaderState) : Prop where
  vouchers : l'.vouchers = l.vouchers
  snapshot : l'.vouchersSnapshot = l.vouchersSnapshot
  epoch : l'.epoch = l.epoch

theorem sameVouchers_of_step {action : Action} (hs : Step eras s action s')
    (ha : ∀ h, action ≠ .header h) :
    SameVouchers s.mantleLedger.leaders s'.mantleLedger.leaders := by
  cases hs with
  | header => exact absurd rfl (ha _)
  | seen => exact ⟨rfl, rfl, rfl⟩
  | operation hv happly =>
    rw [(OpFrame.of_apply hv happly).leaders]
    exact ⟨rfl, rfl, rfl⟩
  | settled hs =>
    obtain ⟨pooled, consumed, leaderReward, blendReward, refill, rfl⟩ :=
      settleBlock_ok hs
    exact ⟨rfl, rfl, rfl⟩
  | counted hr =>
    obtain ⟨_, -, h1⟩ := bind_ok hr
    cases h1
    exact ⟨rfl, rfl, rfl⟩

/-- Steps that are no headers keep the vouchers. -/
theorem sameVouchers_of_run (hrun : Run (Step eras) s ls s') (hls : ∀ a ∈ ls, ∀ h, a ≠ .header h) :
    SameVouchers s.mantleLedger.leaders s'.mantleLedger.leaders := by
  induction hrun with
  | nil => exact ⟨rfl, rfl, rfl⟩
  | @snoc t ls u l _ hstep ih =>
    have hl := sameVouchers_of_step hstep (hls l (by simp))
    have hold := ih fun a ha => hls a (List.mem_append_left _ ha)
    exact ⟨hl.vouchers.trans hold.vouchers, hl.snapshot.trans hold.snapshot,
      hl.epoch.trans hold.epoch⟩

/-- A header of the leaders: a snapshot if the epoch moves on, then the voucher. -/
theorem tryApplyHeader_cases {epoch : Nat} (h : l.tryApplyHeader epoch cm = .ok l') :
    l.vouchers.push compress cm = some l'.vouchers ∧ l'.epoch = epoch ∧
      ((epoch = l.epoch ∧ l'.vouchersSnapshot = l.vouchersSnapshot) ∨
        (l.epoch < epoch ∧
          l'.vouchersSnapshot.root = l.vouchers.frontierRoot compress 0)) := by
  obtain ⟨moved, h1, h2⟩ := bind_ok h
  obtain ⟨vouchers, h3, h4⟩ := bind_ok h2
  cases h4
  rw [lift_ok, LeaderState.updateEpochState] at h1
  rw [expect_ok] at h3
  split at h1
  · next heq =>
    cases h1
    exact ⟨h3, heq.symm, .inl ⟨heq, rfl⟩⟩
  · split at h1
    · cases h1
    · cases h1
      exact ⟨h3, rfl, .inr ⟨by omega, rfl⟩⟩

/-- The vouchers of every state that genesis leads to are those of an array. -/
theorem rangeOf_run {tx : GenesisTx} {config : Config} {g : LedgerState}
    (hg : fromGenesisTx tx config = .ok g) (hrun : Run (Step eras) g ls s) :
    ∃ a n, RangeOf s.mantleLedger.leaders.vouchers a n := by
  refine hrun.invariant (I := fun s => ∃ a n, RangeOf s.mantleLedger.leaders.vouchers a n) ?_ ?_
  · obtain ⟨l, -, -, hg⟩ := fromGenesisTx_ok hg
    rw [hg]
    exact ⟨fun _ => 0, 0, .nil 0, fun _ _ => rfl, Nat.zero_le _⟩
  · rintro s action s' ⟨a, n, h⟩ hs
    rcases hs.header_or with ⟨header, events, rfl, hh⟩ | hother
    · obtain ⟨l, effect, hp, -⟩ := tryApplyHeader_ok hh
      exact ⟨_, _, (h.push (tryApplyHeader_cases hp.leaders).1).2⟩
    · rw [(sameVouchers_of_step hs hother).vouchers]
      exact ⟨a, n, h⟩

/-! ## The wallet -/

/-- The wallet has the vouchers of the leaders, with paths to their roots. -/
structure TracksVouchers (l : LeaderState) (w : WalletState) : Prop where
  vouchers : w.vouchers = l.vouchers
  epoch : w.epoch = l.epoch
  paths : ∃ a n, RangeOf l.vouchers a n ∧
    ∀ cm path, w.voucherPaths.lookup cm = some path → Leads a n cm path
  snapshot : ∀ cm path, w.voucherPathsSnapshot.lookup cm = some path →
    path.verify compress cm l.vouchersSnapshot.root = true

/-- The voucher of a block that the leaders take: the wallet does not fail and keeps track. -/
theorem TracksVouchers.applyVoucher (h : TracksVouchers l w) {block : WalletBlock}
    (hl : l.tryApplyHeader block.epoch block.voucherCm = .ok l') (known : Vouchers VoucherId)
    (order : Map.Iteration w.voucherPaths) :
    ∃ paths snapshot, w.applyVoucher known order block = .ok (l'.vouchers, paths, snapshot) ∧
      ∀ notes, TracksVouchers l' ⟨notes, block.epoch, l'.vouchers, paths, snapshot⟩ := by
  obtain ⟨a, n, hrange, hleads⟩ := h.paths
  obtain ⟨hpush, hepoch, hsnapshot⟩ := tryApplyHeader_cases hl
  obtain ⟨hlt, hrange'⟩ := hrange.push hpush
  have htracked : ∀ t ∈ order.entries.filter (fun e => (known.get e.1).isSome), Leads a n t.1 t.2 :=
    fun t ht => hleads t.1 t.2 ((order.mem_iff _ _).mp (List.mem_filter.mp ht).1)
  obtain ⟨path, paths, hpushed, hpath, hpaths⟩ := hrange.pushWithPaths hlt hpush htracked
  unfold WalletState.applyVoucher
  dsimp only
  rw [h.vouchers, show MerkleMountainRange.maxHeight = 33 from rfl, hpushed]
  refine ⟨_, _, rfl, fun notes => ⟨rfl, hepoch.symm, ⟨_, _, hrange', fun cm p hp => ?_⟩,
    fun cm p hp => ?_⟩⟩
  · -- a path is an updated one or the one of the new voucher
    have hold (hp : ((((order.entries.filter fun e => (known.get e.1).isSome).map (·.1)).zip
        paths).foldl (fun m e => m.insert e.1 e.2) (∅ : VoucherPaths)).lookup cm = some p) :
        Leads (update a n block.voucherCm) (n + 1) cm p := by
      have hmem := Map.mem_of_lookup_foldl _ hp
      rw [List.zip_map_left, List.mem_map] at hmem
      obtain ⟨⟨t, q⟩, ht, heq⟩ := hmem
      cases heq
      exact List.forall₂_iff_zip.mp hpaths |>.2 ht
    split at hp
    · rcases Map.lookup_insert_some.mp hp with ⟨rfl, rfl⟩ | ⟨-, hp⟩
      · exact hpath
      · exact hold hp
    · exact hold hp
  · dsimp only at hp ⊢
    rcases hsnapshot with ⟨heq, hsame⟩ | ⟨hnew, hroot⟩
    · rw [if_neg (by rw [h.epoch, heq]; exact lt_irrefl _)] at hp
      rw [hsame]
      exact h.snapshot cm p hp
    · rw [if_pos (by rw [h.epoch]; exact hnew)] at hp
      rw [hroot]
      exact (hleads cm p hp).verify hrange

theorem TracksVouchers.congr (h : TracksVouchers l w)
    (hs : SameVouchers l l') : TracksVouchers l' w := by
  refine ⟨h.vouchers.trans hs.vouchers.symm, h.epoch.trans hs.epoch.symm, ?_, ?_⟩
  · rw [hs.vouchers]
    exact h.paths
  · rw [hs.snapshot]
    exact h.snapshot

theorem TracksVouchers.start (hc : Clocks eras s) (hrange : ∃ a n,
    RangeOf s.mantleLedger.leaders.vouchers a n) (order : Map.Iteration s.utxos.items) :
    TracksVouchers s.mantleLedger.leaders (.fromLedger knownKeys s order) := by
  obtain ⟨a, n, hrange⟩ := hrange
  refine ⟨rfl, hc.epoch.trans hc.leaders.symm, ⟨a, n, hrange, fun cm path h => ?_⟩,
    fun cm path h => ?_⟩
  · cases h
  · cases h

/-! ## Chains -/

section

variable [Chain.HeaderPrimitives] {tx : GenesisTx} {config : Config} {g : LedgerState}
  {ls : List Action} {b : Chain.Block} {events : List Event}

/-- The ledger accepts a block, and the wallet applies it. -/
def AppliesBlock (eras : EraScheduledConfig) (knownKeys : Map ZkPublicKey KeyId) (VoucherId : Type)
    (p : LedgerState × WalletState) (b : Chain.Block) (p' : LedgerState × WalletState) : Prop :=
  ∃ events deferred block,
    p.1.tryUpdate b.id b.ledgerHeader b.transactions eras = .ok (p'.1, events, deferred) ∧
    WalletBlock.fromBlock b (eras.epochForSlot b.header.slot) events = .ok block ∧
    ∃ (known : Vouchers VoucherId) (order : Map.Iteration p.2.voucherPaths),
      p.2.applyBlock knownKeys known order block = .ok p'.2

theorem fromBlock_voucher {epoch : Nat} {block : WalletBlock}
    (h : WalletBlock.fromBlock b epoch events = .ok block) :
    block.epoch = epoch ∧ block.voucherCm = b.ledgerHeader.proof.voucherCm := by
  obtain ⟨txs, -, h1⟩ := bind_ok h
  cases h1
  exact ⟨rfl, rfl⟩

section

variable (hr : eras.Resolved) (hg : fromGenesisTx tx config = .ok g) (hrun : Run (Step eras) g ls s)
  {deferred : DeferredProofs}
include hr hg hrun

omit [Chain.HeaderPrimitives] in
/-- The leaders take the voucher of a block. -/
theorem leaders_of_block {id : Hash} {h : Header} {txs : List SignedOps}
    (hu : s.tryUpdate id h txs eras = .ok (s', events, deferred)) :
    (∃ ls', Run (Step eras) g ls' s') ∧
      ∃ l, s.mantleLedger.leaders.tryApplyHeader (eras.epochForSlot h.slot) h.proof.voucherCm =
        .ok l ∧ SameVouchers l s'.mantleLedger.leaders := by
  have hblock := tryUpdate_run hu
  obtain ⟨s1, hhead, hrest⟩ := Run.of_cons hblock
  refine ⟨⟨_, hrun.append hblock⟩, s1.mantleLedger.leaders, ?_, ?_⟩
  · cases hhead with
    | header hh =>
      obtain ⟨l, effect, hp, -⟩ := tryApplyHeader_ok hh
      have hclock := (Clocks.of_run hr hg (hrun.snoc (.header hh))).leaders
      rw [hp.slot.2, (tryApplyHeader_cases hp.leaders).2.1] at hclock
      rw [← hclock]
      exact hp.leaders
  · refine sameVouchers_of_run hrest fun a ha h' => ?_
    rintro rfl
    simp at ha

/-- The wallet can apply the voucher of every block. -/
theorem TracksVouchers.block (h : TracksVouchers s.mantleLedger.leaders w) {block : WalletBlock}
    (hu : s.tryUpdate b.id b.ledgerHeader b.transactions eras = .ok (s', events, deferred))
    (hb : WalletBlock.fromBlock b (eras.epochForSlot b.header.slot) events = .ok block)
    (knownKeys : Map ZkPublicKey KeyId) (known : Vouchers VoucherId)
    (order : Map.Iteration w.voucherPaths) :
    ∃ w', w.applyBlock knownKeys known order block = .ok w' ∧
      TracksVouchers s'.mantleLedger.leaders w' := by
  obtain ⟨-, l, hl, hsame⟩ := leaders_of_block hr hg hrun hu
  obtain ⟨hepoch, hcm⟩ := fromBlock_voucher hb
  have hl' : s.mantleLedger.leaders.tryApplyHeader block.epoch block.voucherCm = .ok l := by
    rw [hepoch, hcm]
    exact hl
  obtain ⟨paths, snapshot, happly, htracks⟩ := h.applyVoucher hl' known order
  exact ⟨_, ok_bind happly rfl, (htracks _).congr hsame⟩

end

/-- The wallet has the vouchers of the ledger, its paths lead to their root, and those of its
snapshot to the root that claims are checked against. -/
theorem voucher_paths_verify (hr : eras.Resolved) (hg : fromGenesisTx tx config = .ok g)
    (hs : Run (Step eras) g ls s) (order : Map.Iteration s.utxos.items) {bs : List Chain.Block}
    (hrun : Run (AppliesBlock eras knownKeys VoucherId) (s, .fromLedger knownKeys s order) bs
      (s', w')) :
    w'.vouchers = s'.mantleLedger.leaders.vouchers ∧
    (∀ cm path, w'.voucherPaths.lookup cm = some path →
      path.verify compress cm (w'.vouchers.frontierRoot compress 0) = true) ∧
    ∀ cm path, w'.voucherPathsSnapshot.lookup cm = some path →
      path.verify compress cm s'.mantleLedger.leaders.vouchersSnapshot.root = true := by
  have h := hrun.invariant (I := fun p => (∃ ls, Run (Step eras) g ls p.1) ∧
    TracksVouchers p.1.mantleLedger.leaders p.2)
    ⟨⟨ls, hs⟩, .start (Clocks.of_run hr hg hs) (rangeOf_run hg hs) order⟩ ?_
  · obtain ⟨a, n, hrange, hleads⟩ := h.2.paths
    refine ⟨h.2.vouchers, fun cm path hpath => ?_, h.2.snapshot⟩
    rw [h.2.vouchers]
    exact (hleads cm path hpath).verify hrange
  · rintro ⟨t, w⟩ b ⟨t', w'⟩ ⟨⟨ls, hls⟩, htracks⟩
      ⟨events, deferred, block, hu, hb, known, order, ha⟩
    obtain ⟨w₁, ha₁, htracks'⟩ := htracks.block hr hg hls hu hb knownKeys known order
    cases ha₁.symm.trans ha
    exact ⟨(leaders_of_block hr hg hls hu).1, htracks'⟩

/-! ## By hand -/

/-- The next block of a chain, for a wallet with one voucher. -/
def applyNext (eras : EraScheduledConfig) (p : LedgerState × WalletState) (b : Chain.Block) :
    Except Unit (LedgerState × WalletState) := do
  let (s, events, _) ← (p.1.tryUpdate b.id b.ledgerHeader b.transactions eras).mapError fun _ => ()
  let block ← (WalletBlock.fromBlock b (eras.epochForSlot b.header.slot) events).mapError
    fun _ => ()
  let w ← (p.2.applyBlock (∅ : Map ZkPublicKey Unit) ⟨(∅ : Map VoucherCm Unit).insert 3 ()⟩
    (.ascending _) block).mapError fun _ => ()
  return (s, w)

theorem appliesBlock_of_applyNext {p p' : LedgerState × WalletState}
    (h : applyNext eras p b = .ok p') :
    AppliesBlock eras (∅ : Map ZkPublicKey Unit) Unit p b p' := by
  obtain ⟨⟨s, events, deferred⟩, hu, h1⟩ := bind_ok h
  obtain ⟨block, hb, h2⟩ := bind_ok h1
  obtain ⟨w, ha, h3⟩ := bind_ok h2
  cases h3
  exact ⟨events, deferred, block, mapError_ok.mp hu, mapError_ok.mp hb, _, _, mapError_ok.mp ha⟩

def voucherBlock (id : Hash) (slot : Nat) (cm : VoucherCm) : Chain.Block :=
  ⟨⟨slot, 0, id, ⟨0, 0, 0, cm⟩⟩, [], []⟩

def vouchersAcrossEras : Except Unit (LedgerState × LedgerState × WalletState) := do
  let g ← (fromGenesisTx genesisWithService .small).mapError fun _ => ()
  let p ← applyNext twoEras (g, .fromLedger (∅ : Map ZkPublicKey Unit) g (.ascending _))
    (voucherBlock 1 1 3)
  let p' ← applyNext twoEras p (voucherBlock 2 35 4)
  return (g, p')

omit [Primitives] [Chain.HeaderPrimitives] in
/-- The voucher of the first block can be claimed after the second one. -/
theorem voucher_paths_verify_acrossEras :
    letI := plain
    letI := Chain.HeaderPrimitives.plain
    ∃ g s w path, fromGenesisTx genesisWithService .small = .ok g ∧
      Run (AppliesBlock twoEras (∅ : Map ZkPublicKey Unit) Unit)
        (g, .fromLedger (∅ : Map ZkPublicKey Unit) g (.ascending _))
        [voucherBlock 1 1 3, voucherBlock 2 35 4] (s, w) ∧
      w.voucherPathsSnapshot.lookup 3 = some path ∧
      path.verify compress 3 s.mantleLedger.leaders.vouchersSnapshot.root = true := by
  let _ := plain
  let _ := Chain.HeaderPrimitives.plain
  obtain ⟨⟨g, s, w⟩, h, hpath⟩ := exists_ok (x := vouchersAcrossEras)
    (fun r => (r.2.2.voucherPathsSnapshot.lookup 3).isSome = true) (by decide +kernel)
  obtain ⟨_, h1, h2⟩ := bind_ok h
  obtain ⟨p, h3, h4⟩ := bind_ok h2
  obtain ⟨_, h5, h6⟩ := bind_ok h4
  cases h6
  obtain ⟨path, hpath⟩ := Option.isSome_iff_exists.mp hpath
  have hg := mapError_ok.mp h1
  have hrun := Run.snoc (.snoc (.nil _) (appliesBlock_of_applyNext h3))
    (appliesBlock_of_applyNext h5)
  have hverify := (voucher_paths_verify twoEras_resolved hg (.nil g) _ hrun).2.2
  exact ⟨g, s, w, path, hg, hrun, hpath, hverify 3 path hpath⟩

end

end Logos.Wallet
