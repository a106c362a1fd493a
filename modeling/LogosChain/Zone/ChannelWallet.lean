import LogosChain.Base.Except
import LogosChain.Base.Word
import LogosChain.Mantle.Types
import Mathlib.Algebra.Order.BigOperators.Group.List
import Mathlib.Algebra.Order.Group.Nat
import Mathlib.Data.List.Sort

/-!
# The notes of a withdrawal (`zone-sdk/src/sequencer/channel_wallet.rs`)

A sequencer funds a withdrawal with the newest notes of its channel first; if 255 of them do not
cover the amount it takes the largest first, and fills up with dust. Its own notes come before those
of other keys, so many small ones can hide one that would cover the amount alone.
-/

namespace Logos.Zone

open Base Mantle List

/-! ## The selection -/

/-- A note of the channel, with the slot it was made at. -/
structure ChannelNote where
  noteId : NoteId
  value : Nat
  pk : ZkPublicKey
  slot : Nat
deriving DecidableEq, Repr

/-- The spendable notes of the channel. -/
structure ChannelWalletView where
  finalized : List ChannelNote
  unfinalized : List ChannelNote

/-- The notes that may fund a withdrawal. -/
def ChannelWalletView.pool (view : ChannelWalletView) : List ChannelNote :=
  view.finalized ++ view.unfinalized

/-- The sequencer selects the notes, or the caller names them. -/
inductive WithdrawInputs where
  | auto
  | explicit (ids : List NoteId)

/-- The texts of `Error::Network`. -/
inductive SelectError where
  /-- "explicit withdraw inputs (…) exceed the 255-input limit" -/
  | tooManyInputs (count : Nat)
  /-- "duplicate explicit withdraw input: …" -/
  | duplicateInput (id : NoteId)
  /-- "explicit withdraw input is not a spendable channel note: …" -/
  | notSpendable (id : NoteId)
  /-- "explicit withdraw input value overflow" -/
  | inputOverflow
  /-- "explicit withdraw inputs cover …, need …" -/
  | inputsTooSmall (sum amount : Nat)
  /-- "channel note value overflow" -/
  | noteOverflow
  /-- "insufficient channel funds: have …, need …" -/
  | insufficientFunds (total amount : Nat)
  /-- "cannot cover withdrawal under the 255-input limit" -/
  | cannotCover
deriving DecidableEq, Repr

/-- The own notes before the others; equal notes keep their order. -/
def ordered (own other : List ChannelNote) (r : ChannelNote → ChannelNote → Prop)
    [DecidableRel r] : List ChannelNote :=
  own.insertionSort r ++ other.insertionSort r

/-- Take notes until they cover the amount. -/
def coverFrom (amount : Nat) (selected : List NoteId) (sum : Nat) :
    List ChannelNote → Option (List NoteId)
  | [] => if amount ≤ sum then some selected else none
  | note :: rest =>
    if amount ≤ sum then some selected
    else if selected.length = maxTransactionInputs then none
    else do
      let sum ← checkedAdd 64 sum note.value
      coverFrom amount (selected ++ [note.noteId]) sum rest

/-- Fill the inputs that are left. -/
def sweepInto (selected : List NoteId) : List ChannelNote → List NoteId
  | [] => selected
  | note :: rest =>
    if maxTransactionInputs ≤ selected.length then selected
    else sweepInto (selected ++ [note.noteId]) rest

/-- The value of the named notes. The last note of an id counts. -/
def explicitValue (pool : List ChannelNote) (seen : List NoteId) (sum : Nat) :
    List NoteId → Except SelectError Nat
  | [] => .ok sum
  | id :: rest => do
    failIf (id ∈ seen) (.duplicateInput id)
    let note ← okOr (pool.reverse.find? fun n => n.noteId = id) (.notSpendable id)
    let sum ← okOr (checkedAdd 64 sum note.value) .inputOverflow
    explicitValue pool (id :: seen) sum rest

/-- The notes of the key of the sequencer. -/
def ownNotes (pool : List ChannelNote) (ownKey : ZkPublicKey) : List ChannelNote :=
  pool.filter fun n => n.pk = ownKey

/-- The notes of other keys. -/
def otherNotes (pool : List ChannelNote) (ownKey : ZkPublicKey) : List ChannelNote :=
  pool.filter fun n => ¬ n.pk = ownKey

/-- The own notes before the others, the newest first. -/
def newestFirst (pool : List ChannelNote) (ownKey : ZkPublicKey) : List ChannelNote :=
  ordered (ownNotes pool ownKey) (otherNotes pool ownKey) fun a b => b.slot ≤ a.slot

/-- The own notes before the others, the largest first. -/
def largestFirst (pool : List ChannelNote) (ownKey : ZkPublicKey) : List ChannelNote :=
  ordered (ownNotes pool ownKey) (otherNotes pool ownKey) fun a b => b.value ≤ a.value

/-- The notes too small to cover the amount, the smallest first. -/
def dust (notes : List ChannelNote) (taken : List NoteId) (amount : Nat) : List ChannelNote :=
  (notes.filter fun n => n.noteId ∉ taken ∧
    saturatingMul 64 n.value maxTransactionInputs < amount).insertionSort
      fun a b => a.value < b.value ∨ a.value = b.value ∧ a.slot ≤ b.slot

/-- The notes that fund a withdrawal of an amount. -/
def selectChannelNotes (view : ChannelWalletView) (ownKey : ZkPublicKey) (amount : Nat) :
    WithdrawInputs → Except SelectError (List NoteId)
  | .explicit ids => do
    failIf (maxTransactionInputs < ids.length) (.tooManyInputs ids.length)
    let sum ← explicitValue view.pool [] 0 ids
    failIf (sum < amount) (.inputsTooSmall sum amount)
    return ids
  | .auto => do
    let notes := ownNotes view.pool ownKey ++ otherNotes view.pool ownKey
    let total ← okOr (notes.foldlM (fun acc n => checkedAdd 64 acc n.value) 0) .noteOverflow
    failIf (total < amount) (.insufficientFunds total amount)
    let cover ← okOr ((coverFrom amount [] 0 (newestFirst view.pool ownKey)).or
      (coverFrom amount [] 0 (largestFirst view.pool ownKey))) .cannotCover
    return sweepInto cover (dust notes cover amount)

/-! ## Sums of notes -/

/-- The value of notes together. -/
def totalValue (notes : List ChannelNote) : Nat := (notes.map (·.value)).sum

/-- The value of as many notes as a withdrawal may take. -/
def cappedValue (notes : List ChannelNote) : Nat := totalValue (notes.take maxTransactionInputs)

variable {pool notes notes' : List ChannelNote} {ownKey : ZkPublicKey} {amount : Nat}
  {n : ChannelNote} {taken : List NoteId}

@[simp]
theorem totalValue_cons (n : ChannelNote) (notes : List ChannelNote) :
    totalValue (n :: notes) = n.value + totalValue notes := rfl

theorem totalValue_append : totalValue (notes ++ notes') = totalValue notes + totalValue notes' := by
  rw [totalValue, map_append, sum_append]
  rfl

theorem totalValue_perm (h : notes.Perm notes') : totalValue notes = totalValue notes' :=
  (h.map _).sum_eq

theorem totalValue_sublist (h : notes.Sublist notes') : totalValue notes ≤ totalValue notes' :=
  (h.map _).sum_le_sum (by simp)

/-- One note more than `k` is worth at most a note that no other exceeds. -/
theorem totalValue_take_succ_le (h : ∀ m ∈ notes, m.value ≤ n.value) (k : Nat) :
    totalValue (notes.take (k + 1)) ≤ n.value + totalValue (notes.take k) := by
  rw [take_add_one]
  cases hk : notes[k]? with
  | none => simp
  | some m =>
    have hm := h m (mem_of_getElem? hk)
    simp only [totalValue, Option.toList_some, map_append, sum_append, map_cons,
      map_nil, sum_singleton]
    omega

/-- No `k` of some notes are worth more than the `k` largest. -/
theorem totalValue_le_take (hsorted : notes'.Pairwise fun a b => b.value ≤ a.value)
    (h : notes.Sublist notes') {k : Nat} (hk : notes.length ≤ k) :
    totalValue notes ≤ totalValue (notes'.take k) := by
  induction h generalizing k with
  | slnil => simp
  | @cons notes notes' n h ih =>
    have hlargest := (pairwise_cons.mp hsorted).1
    cases k with
    | zero =>
      rw [eq_nil_of_length_eq_zero (Nat.le_zero.mp hk)]
      simp
    | succ k =>
      have h1 := ih hsorted.of_cons hk
      have h2 := totalValue_take_succ_le hlargest k
      simp only [take_succ_cons, totalValue_cons]
      omega
  | @cons_cons notes notes' n h ih =>
    cases k with
    | zero => simp at hk
    | succ k =>
      have h1 := ih hsorted.of_cons (k := k) (by simpa using hk)
      simp only [take_succ_cons, totalValue_cons]
      omega

theorem totalValue_take_le_take (hsorted : notes'.Pairwise fun a b => b.value ≤ a.value)
    (h : notes.Perm notes') (k : Nat) : totalValue (notes.take k) ≤ totalValue (notes'.take k) := by
  obtain ⟨taken, hperm, hsublist⟩ := (take_sublist k notes).subperm.trans h.subperm
  rw [← totalValue_perm hperm]
  exact totalValue_le_take hsorted hsublist (hperm.length_eq ▸ length_take_le k notes)

theorem foldlM_checkedAdd {sum : Nat} (h : sum + totalValue notes < 2 ^ 64) :
    notes.foldlM (fun acc n => checkedAdd 64 acc n.value) sum = some (sum + totalValue notes) := by
  induction notes generalizing sum with
  | nil => rfl
  | cons n notes ih =>
    rw [totalValue_cons, ← Nat.add_assoc] at h ⊢
    have hn : checkedAdd 64 sum n.value = some (sum + n.value) :=
      checkedAdd_eq_some.mpr ⟨rfl, by omega⟩
    rw [foldlM_cons, hn]
    exact ih h

/-! ## Covering an amount -/

/-- The loop succeeds when the notes cover the amount, and takes a first part of them that does. -/
theorem coverFrom_spec {selected : List NoteId} {sum : Nat}
    (hselected : selected.length ≤ maxTransactionInputs) (h : sum + totalValue notes < 2 ^ 64) :
    (coverFrom amount selected sum notes = none ∧
      sum + totalValue (notes.take (maxTransactionInputs - selected.length)) < amount) ∨
    ∃ k, coverFrom amount selected sum notes =
        some (selected ++ (notes.take k).map (·.noteId)) ∧
      selected.length + k ≤ maxTransactionInputs ∧ amount ≤ sum + totalValue (notes.take k) := by
  induction notes generalizing selected sum with
  | nil =>
    by_cases hsum : amount ≤ sum
    · exact .inr ⟨0, by simp [coverFrom, hsum], hselected, by simpa [totalValue] using hsum⟩
    · exact .inl ⟨by simp [coverFrom, hsum], by simpa [totalValue] using hsum⟩
  | cons n notes ih =>
    by_cases hsum : amount ≤ sum
    · exact .inr ⟨0, by simp [coverFrom, hsum], hselected, by simpa [totalValue] using hsum⟩
    by_cases hfull : selected.length = maxTransactionInputs
    · exact .inl ⟨by simp [coverFrom, hsum, hfull], by simpa [hfull, totalValue] using hsum⟩
    have hroom : (selected ++ [n.noteId]).length ≤ maxTransactionInputs := by
      rw [length_append, length_singleton]
      omega
    rw [totalValue_cons, ← Nat.add_assoc] at h
    have hn : checkedAdd 64 sum n.value = some (sum + n.value) :=
      checkedAdd_eq_some.mpr ⟨rfl, by omega⟩
    have hstep : coverFrom amount selected sum (n :: notes) =
        coverFrom amount (selected ++ [n.noteId]) (sum + n.value) notes := by
      simp [coverFrom, hsum, hfull, hn]
    have hleft : maxTransactionInputs - selected.length =
        (maxTransactionInputs - (selected ++ [n.noteId]).length) + 1 := by
      rw [length_append, length_singleton] at hroom ⊢
      omega
    rw [hstep, hleft, take_succ_cons, totalValue_cons, ← Nat.add_assoc]
    rcases ih hroom h with hnone | ⟨k, hk, hlen, hcover⟩
    · exact .inl hnone
    · refine .inr ⟨k + 1, ?_, ?_, ?_⟩
      · simpa [take_succ_cons] using hk
      · rw [length_append, length_singleton] at hlen
        omega
      · rwa [take_succ_cons, totalValue_cons, ← Nat.add_assoc]

theorem coverFrom_cases (amount : Nat) (h : totalValue notes < 2 ^ 64) :
    (coverFrom amount [] 0 notes = none ∧ cappedValue notes < amount) ∨
    ∃ k ≤ maxTransactionInputs, coverFrom amount [] 0 notes =
      some ((notes.take k).map (·.noteId)) ∧ amount ≤ totalValue (notes.take k) := by
  have hspec := @coverFrom_spec notes amount [] 0 (Nat.zero_le _) (by rwa [Nat.zero_add])
  simp only [length_nil, Nat.sub_zero, Nat.zero_add, nil_append] at hspec
  rcases hspec with hnone | ⟨k, hsome, hk, hvalue⟩
  · exact .inl hnone
  · exact .inr ⟨k, hk, hsome, hvalue⟩

theorem coverFrom_eq_none (h : totalValue notes < 2 ^ 64) :
    coverFrom amount [] 0 notes = none ↔ cappedValue notes < amount := by
  rcases coverFrom_cases amount h with ⟨hnone, hlt⟩ | ⟨k, hk, hsome, hvalue⟩
  · exact iff_of_true hnone hlt
  · have hmono : totalValue (notes.take k) ≤ cappedValue notes :=
      totalValue_sublist (take_sublist_take_left hk)
    rw [hsome]
    exact iff_of_false nofun (by omega)

theorem sweepInto_eq (selected : List NoteId) (notes : List ChannelNote) :
    sweepInto selected notes =
      selected ++ (notes.take (maxTransactionInputs - selected.length)).map (·.noteId) := by
  induction notes generalizing selected with
  | nil => simp [sweepInto]
  | cons n notes ih =>
    by_cases hfull : maxTransactionInputs ≤ selected.length
    · simp [sweepInto, hfull]
    · have hleft : maxTransactionInputs - selected.length =
          (maxTransactionInputs - (selected ++ [n.noteId]).length) + 1 := by
        rw [length_append, length_singleton]
        omega
      rw [hleft, take_succ_cons]
      simp [sweepInto, hfull, ih]

theorem mem_dust (h : n ∈ dust notes taken amount) : n ∈ notes ∧ n.noteId ∉ taken := by
  have hn := mem_filter.mp ((perm_insertionSort _ _).subset h)
  exact ⟨hn.1, (of_decide_eq_true hn.2).1⟩

theorem dust_nodup (h : (notes.map (·.noteId)).Nodup) :
    ((dust notes taken amount).map (·.noteId)).Nodup := by
  have hperm := perm_insertionSort
    (fun a b : ChannelNote => a.value < b.value ∨ a.value = b.value ∧ a.slot ≤ b.slot)
    (notes.filter fun n => n.noteId ∉ taken ∧
      saturatingMul 64 n.value maxTransactionInputs < amount)
  exact (hperm.map _).nodup_iff.mpr (h.sublist (filter_sublist.map _))

/-! ## The orders are orders of the pool -/

theorem own_append_other_perm (pool : List ChannelNote) (ownKey : ZkPublicKey) :
    (ownNotes pool ownKey ++ otherNotes pool ownKey).Perm pool := by
  simpa [ownNotes, otherNotes] using filter_append_perm (fun n => n.pk = ownKey) pool

theorem ordered_perm (r : ChannelNote → ChannelNote → Prop) [DecidableRel r] :
    (ordered (ownNotes pool ownKey) (otherNotes pool ownKey) r).Perm pool :=
  ((perm_insertionSort r _).append (perm_insertionSort r _)).trans
    (own_append_other_perm pool ownKey)

/-- No order with the own notes first has more value in its first 255 than that by value. -/
theorem cappedValue_ordered_le (r : ChannelNote → ChannelNote → Prop) [DecidableRel r] :
    cappedValue (ordered (ownNotes pool ownKey) (otherNotes pool ownKey) r) ≤
      cappedValue (largestFirst pool ownKey) := by
  have hpart : ∀ (l : List ChannelNote) k, totalValue ((l.insertionSort r).take k) ≤
      totalValue ((l.insertionSort fun a b => b.value ≤ a.value).take k) := fun l k =>
    totalValue_take_le_take (pairwise_insertionSort _ l)
      ((perm_insertionSort r l).trans (perm_insertionSort _ l).symm) k
  unfold cappedValue largestFirst ordered
  rw [take_append, take_append, totalValue_append, totalValue_append, length_insertionSort,
    length_insertionSort]
  exact Nat.add_le_add (hpart _ _) (hpart _ _)

/-- At most 255 notes of the pool that cover the amount. -/
structure Covering (pool : List ChannelNote) (amount : Nat) (notes : List ChannelNote) : Prop where
  distinct : notes.Nodup
  subset : notes ⊆ pool
  bounded : notes.length ≤ maxTransactionInputs
  covers : amount ≤ totalValue notes

/-- The pool, the largest notes first whoever holds them. -/
def byValue (pool : List ChannelNote) : List ChannelNote :=
  pool.insertionSort fun a b => b.value ≤ a.value

theorem byValue_pairwise (pool : List ChannelNote) :
    (byValue pool).Pairwise fun a b => b.value ≤ a.value := by
  exact pairwise_insertionSort _ _

/-- Some notes cover the amount if the 255 largest do. -/
theorem exists_covering_iff (hpool : pool.Nodup) :
    (∃ notes, Covering pool amount notes) ↔ amount ≤ cappedValue (byValue pool) := by
  have hperm : (byValue pool).Perm pool := perm_insertionSort _ pool
  constructor
  · rintro ⟨notes, h⟩
    obtain ⟨notes', hp, hs⟩ := h.distinct.subperm fun n hn => hperm.symm.subset (h.subset hn)
    have hle := totalValue_le_take (byValue_pairwise pool) hs (k := maxTransactionInputs)
      (hp.length_eq ▸ h.bounded)
    rw [totalValue_perm hp] at hle
    exact h.covers.trans hle
  · intro h
    refine ⟨(byValue pool).take maxTransactionInputs, ?_, ?_, ?_, h⟩
    · exact (hperm.nodup_iff.mpr hpool).sublist (take_sublist _ _)
    · exact fun n hn => hperm.subset (mem_of_mem_take hn)
    · exact length_take_le _ _

/-! ## Automatic selection -/

section Auto

variable {view : ChannelWalletView} (htotal : totalValue view.pool < 2 ^ 64)

include htotal

theorem total_eq : (ownNotes view.pool ownKey ++ otherNotes view.pool ownKey).foldlM
    (fun acc n => checkedAdd 64 acc n.value) 0 = some (totalValue view.pool) := by
  have hperm := totalValue_perm (own_append_other_perm view.pool ownKey)
  rw [foldlM_checkedAdd (by omega), hperm, Nat.zero_add]

/-- Automatic selection fails if the first 255 notes do not cover the amount, own and large ones
first. -/
theorem auto_error_iff :
    (∃ e, selectChannelNotes view ownKey amount .auto = .error e) ↔
      cappedValue (largestFirst view.pool ownKey) < amount := by
  have hnewest : totalValue (newestFirst view.pool ownKey) = totalValue view.pool :=
    totalValue_perm (ordered_perm _)
  have hlargest : totalValue (largestFirst view.pool ownKey) = totalValue view.pool :=
    totalValue_perm (ordered_perm _)
  simp only [selectChannelNotes]
  rw [bind_of_ok (okOr_ok.mpr (total_eq htotal))]
  by_cases hfunds : totalValue view.pool < amount
  · rw [failIf, if_pos hfunds]
    have hle := totalValue_sublist (take_sublist maxTransactionInputs
      (largestFirst view.pool ownKey))
    exact iff_of_true ⟨_, rfl⟩ (lt_of_le_of_lt (hlargest ▸ hle) hfunds)
  · -- Where the largest notes do not cover the amount, the newest do not either.
    have hboth : cappedValue (largestFirst view.pool ownKey) < amount ↔
        cappedValue (newestFirst view.pool ownKey) < amount ∧
          cappedValue (largestFirst view.pool ownKey) < amount :=
      ⟨fun h => ⟨(cappedValue_ordered_le _).trans_lt h, h⟩, fun h => h.2⟩
    rw [bind_of_ok (failIf_of_not hfunds), hboth,
      ← coverFrom_eq_none (hnewest ▸ htotal), ← coverFrom_eq_none (hlargest ▸ htotal),
      ← Option.or_eq_none_iff]
    cases Option.or _ _ <;> simp [okOr, bind, Except.bind, pure, Except.pure]

/-- Automatic selection takes distinct notes that cover the amount. -/
theorem auto_ok (hdistinct : (view.pool.map (·.noteId)).Nodup) {ids : List NoteId}
    (h : selectChannelNotes view ownKey amount .auto = .ok ids) :
    ids.Nodup ∧ ∃ notes, ids = notes.map (·.noteId) ∧ Covering view.pool amount notes := by
  obtain ⟨total, -, h⟩ := bind_ok h
  obtain ⟨-, -, h⟩ := bind_ok h
  obtain ⟨cover, hcover, h⟩ := bind_ok h
  cases h
  obtain ⟨tiers, hperm, htiers⟩ : ∃ tiers : List ChannelNote, tiers.Perm view.pool ∧
      coverFrom amount [] 0 tiers = some cover := by
    rcases Option.or_eq_some_iff.mp (okOr_ok.mp hcover) with hsome | ⟨-, hsome⟩
    · exact ⟨_, ordered_perm _, hsome⟩
    · exact ⟨_, ordered_perm _, hsome⟩
  rcases coverFrom_cases amount (totalValue_perm hperm ▸ htotal) with
    ⟨hnone, -⟩ | ⟨k, hk, hsome, hvalue⟩
  · exact absurd (hnone.symm.trans htiers) nofun
  cases hsome.symm.trans htiers
  rw [sweepInto_eq, ← map_append]
  set notes := ownNotes view.pool ownKey ++ otherNotes view.pool ownKey
  set swept := (dust notes ((tiers.take k).map (·.noteId)) amount).take
    (maxTransactionInputs - ((tiers.take k).map (·.noteId)).length)
  have hnotes : notes.Perm view.pool := own_append_other_perm view.pool ownKey
  have hmem : ∀ n ∈ swept, n ∈ notes ∧ n.noteId ∉ (tiers.take k).map (·.noteId) :=
    fun n hn => mem_dust (mem_of_mem_take hn)
  have hids : ((tiers.take k ++ swept).map (·.noteId)).Nodup := by
    rw [map_append]
    refine Nodup.append ?_ ?_ ?_
    · exact ((hperm.map _).nodup_iff.mpr hdistinct).sublist ((take_sublist _ _).map _)
    · exact (dust_nodup ((hnotes.map _).nodup_iff.mpr hdistinct)).sublist ((take_sublist _ _).map _)
    · intro id htaken hid
      obtain ⟨n, hn, rfl⟩ := mem_map.mp hid
      exact (hmem n hn).2 htaken
  refine ⟨hids, _, rfl, hids.of_map, ?_, ?_, ?_⟩
  · intro n hn
    rcases mem_append.mp hn with h1 | h2
    · exact hperm.subset (mem_of_mem_take h1)
    · exact hnotes.subset (hmem n h2).1
  · have h1 := length_take_le k tiers
    have h2 : swept.length ≤ maxTransactionInputs - ((tiers.take k).map (·.noteId)).length :=
      length_take_le _ _
    rw [length_map] at h2
    rw [length_append]
    omega
  · have hadd := totalValue_sublist (sublist_append_left (tiers.take k) swept)
    omega

end Auto

/-- What automatic selection takes covers the amount. It fails only where no notes do, but for
amounts that the 255 largest notes cover and the first 255 with the own notes in front do not. -/
theorem auto_selection_complete_iff (view : ChannelWalletView) (ownKey : ZkPublicKey) (amount : Nat)
    (hdistinct : (view.pool.map (·.noteId)).Nodup) (htotal : totalValue view.pool < 2 ^ 64) :
    (∀ ids, selectChannelNotes view ownKey amount .auto = .ok ids →
      ids.Nodup ∧ ∃ notes, ids = notes.map (·.noteId) ∧ Covering view.pool amount notes) ∧
    (((∃ e, selectChannelNotes view ownKey amount .auto = .error e) →
        ¬ ∃ notes, Covering view.pool amount notes) ↔
      ¬ (amount ≤ cappedValue (byValue view.pool) ∧
        cappedValue (largestFirst view.pool ownKey) < amount)) := by
  refine ⟨fun ids h => auto_ok htotal hdistinct h, ?_⟩
  rw [auto_error_iff htotal, exists_covering_iff hdistinct.of_map]
  constructor
  · exact fun h ⟨h1, h2⟩ => h h2 h1
  · exact fun h h2 h1 => h ⟨h1, h2⟩

/-- 255 own notes of value 1 and a note of another key. -/
def crowdedView : ChannelWalletView where
  finalized := ⟨0, 1000, 8, 0⟩ :: (range' 1 255).map fun i => ⟨i, 1, 7, 0⟩
  unfinalized := []

theorem auto_selection_crowded :
    selectChannelNotes crowdedView 7 500 .auto = .error .cannotCover ∧
      Covering crowdedView.pool 500 [⟨0, 1000, 8, 0⟩] := by
  refine ⟨by decide +kernel, by decide, ?_, by decide, by decide⟩
  simp [crowdedView, ChannelWalletView.pool]

theorem auto_selection_three :
    let view : ChannelWalletView := ⟨[⟨1, 100, 7, 3⟩, ⟨2, 30, 8, 5⟩], [⟨3, 10, 7, 9⟩]⟩
    selectChannelNotes view 7 120 .auto = .ok [3, 1, 2] ∧
    (((∃ e, selectChannelNotes view 7 120 .auto = .error e) →
        ¬ ∃ notes, Covering view.pool 120 notes) ↔
      ¬ (120 ≤ cappedValue (byValue view.pool) ∧
        cappedValue (largestFirst view.pool 7) < 120)) :=
  ⟨by decide +kernel, (auto_selection_complete_iff _ 7 120 (by decide) (by decide)).2⟩

end Logos.Zone
