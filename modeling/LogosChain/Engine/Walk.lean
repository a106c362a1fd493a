import LogosChain.Engine.Cryptarchia

/-!
# Well-formed block trees, and the walks in them

`Branches.Ok` is local. The global form follows: every block reaches the LIB (`Ok.lib_anc`), and the
length grades the tree (`Ok.graded`). In a well-formed tree no walk runs out of fuel, and each
computes what its name says.
-/

namespace Logos.Engine

open Base Branches

variable {Id : Type} [DecidableEq Id]

namespace Branches

variable {s : Branches Id} {b : Branch Id}

/-- The links of the tree: the parents of its blocks. -/
def par (s : Branches Id) (b : Branch Id) : Option (Branch Id) :=
  if s.Has b then s.parent b else none

/-- `c` is a child of the block `i`. -/
def IsChild (s : Branches Id) (i : Id) (c : Branch Id) : Prop := s.Has c ∧ c.parent = i ∧ c.id ≠ i

/-- The invariant of the block tree, block by block. -/
structure Ok (s : Branches Id) : Prop where
  key : ∀ i b, s.branches.lookup i = some b → b.id = i
  lib : s.lib ∈ s.branches
  up : ∀ b, s.Has b → b.id ≠ s.lib →
    ∃ p, s.Has p ∧ p.id = b.parent ∧ b.length = p.length + 1 ∧ p.slot ≤ b.slot
  root : ∀ b, s.Has b → b.id = s.lib → b.parent = b.id ∨ b.parent ∉ s.branches
  tips : ∀ i, i ∈ s.tips ↔ i ∈ s.branches ∧ ∀ c, ¬ s.IsChild i c
  below : ∀ b, s.Has b → ∃ t, s.Has t ∧ t.id ∈ s.tips ∧ Anc s.par b t

theorem eq_of_id {a : Branch Id} (ha : s.Has a) (hb : s.Has b) (h : a.id = b.id) : a = b := by
  grind [Has]

theorem Has.mem (hb : s.Has b) : b.id ∈ s.branches :=
  Finmap.mem_of_lookup_eq_some hb

theorem par_of_has (hb : s.Has b) : s.par b = s.parent b := if_pos hb

namespace Ok

variable {b a : Branch Id} {i : Id}

theorem has_of_lookup (hs : s.Ok) (h : s.branches.lookup i = some b) : s.Has b := by
  have hk := hs.key i b h
  rw [Branches.Has, hk]; exact h

theorem exists_has (hs : s.Ok) (hi : i ∈ s.branches) : ∃ b, s.Has b ∧ b.id = i := by
  obtain ⟨b, hb⟩ := Finmap.mem_iff.mp hi
  exact ⟨b, hs.has_of_lookup hb, hs.key i b hb⟩

theorem par_lib (hs : s.Ok) (hb : s.Has b) (hl : b.id = s.lib) :
    s.par b = none := by grind [par_of_has, parent, root, Finmap.lookup_eq_none]

theorem exists_par (hs : s.Ok) (hb : s.Has b) (hl : b.id ≠ s.lib) :
    ∃ p, s.par b = some p ∧ s.Has p ∧ p.id = b.parent ∧ b.length = p.length + 1 ∧
      p.slot ≤ b.slot := by
  obtain ⟨p, hp, hid, hlen, hslot⟩ := hs.up b hb hl
  refine ⟨p, ?_, hp, hid, hlen, hslot⟩
  have hne : b.parent ≠ b.id := by grind [eq_of_id]
  rw [par_of_has hb, parent, if_neg hne, ← hid]
  exact hp

theorem par_spec (hs : s.Ok) {p : Branch Id} (h : s.par b = some p) :
    s.Has b ∧ s.Has p ∧ p.id = b.parent ∧ b.length = p.length + 1 ∧ p.slot ≤ b.slot ∧
      b.id ≠ s.lib := by
  have hb : s.Has b := by
    by_contra hb
    rw [par, if_neg hb] at h
    cases h
  have hl : b.id ≠ s.lib := fun hl => by rw [hs.par_lib hb hl] at h; cases h
  obtain ⟨q, hq, hHas, hid, hlen, hslot⟩ := hs.exists_par hb hl
  grind

theorem graded (hs : s.Ok) : Graded s.par Branch.length :=
  fun _ _ h => (hs.par_spec h).2.2.2.1

section

variable (hs : s.Ok) {l : Branch Id}
include hs

theorem anc_has (hab : Anc s.par a b) (hb : s.Has b) : s.Has a := by
  induction hab with
  | refl => exact hb
  | tail _ hpc ih => exact ih (hs.par_spec hpc).2.1

theorem slot_le (hab : Anc s.par a b) : a.slot ≤ b.slot := by
  induction hab with
  | refl => exact Nat.le_refl _
  | tail _ hpc ih => exact Nat.le_trans ih (hs.par_spec hpc).2.2.2.2.1

theorem exists_lib : ∃ l, s.Has l ∧ l.id = s.lib := hs.exists_has hs.lib

/-- Every block reaches the LIB: only the LIB has no parent, and lengths drop. -/
theorem lib_anc (hl : s.Has l) (hlid : l.id = s.lib) (hb : s.Has b) : Anc s.par l b := by
  induction hn : b.length using Nat.strongRecOn generalizing b with
  | _ n ih =>
    by_cases he : b.id = s.lib
    · rw [eq_of_id hl hb (hlid.trans he.symm)]
    · obtain ⟨p, hp, hpHas, -, hlen, -⟩ := hs.exists_par hb he
      exact (ih p.length (by omega) hpHas rfl).step hp

theorem lib_length_le (hl : s.Has l) (hlid : l.id = s.lib) (hb : s.Has b) : l.length ≤ b.length :=
  hs.graded.height_le (hs.lib_anc hl hlid hb)

theorem tip_has {i : Id} (hi : i ∈ s.tips) : ∃ t, s.Has t ∧ t.id = i :=
  hs.exists_has ((hs.tips i).mp hi).1

/-- The walk down to a length ends at the ancestor of that length. -/
theorem level_spec {n len : Nat} (hb : s.Has b) (hab : Anc s.par a b) (hlen : a.length = len)
    (hn : b.length < n + len) : s.level n b len = some a := by
  induction n generalizing b with
  | zero =>
    have := hs.graded.height_le hab
    omega
  | succ n ih =>
    rw [level]
    by_cases hlt : len < b.length
    · rw [if_pos hlt]
      rcases hab.cases_parent with rfl | ⟨p, hp, hap⟩
      · omega
      · grind [par_of_has, par_spec]
    · rw [if_neg hlt, hs.graded.eq_of_height_le hab (by omega)]

end

/-- A walk to a length not below the block's own ends at once. -/
theorem level_self {n len : Nat} (h : b.length ≤ len) : s.level (n + 1) b len = some b := by
  rw [level, if_neg (by omega)]

variable (hs : s.Ok)
include hs

theorem meet_spec {n : Nat} (ha : s.Has a) (hb : s.Has b) (hlen : a.length = b.length)
    (hn : a.length < n) : ∃ l, s.meet n a b = some l ∧ s.Has l ∧ IsLca s.par a b l := by
  induction n generalizing a b with
  | zero => omega
  | succ n ih =>
    rw [meet]
    by_cases he : a.id = b.id
    · grind [eq_of_id, IsLca.of_anc, Anc.refl]
    · rw [if_neg he]
      obtain ⟨l, hl, hlid⟩ := hs.exists_lib
      have hane : a.id ≠ s.lib := fun h => he <| by
        have h2 := eq_of_id hl ha (hlid.trans h.symm)
        subst h2
        rw [hs.graded.eq_of_height_le (hs.lib_anc hl hlid hb) (by omega)]
      have hbne : b.id ≠ s.lib := fun h => he <| by
        have h2 := eq_of_id hl hb (hlid.trans h.symm)
        subst h2
        rw [hs.graded.eq_of_height_le (hs.lib_anc hl hlid ha) (by omega)]
      obtain ⟨p, hp, hpHas, -, hpl, -⟩ := hs.exists_par ha hane
      obtain ⟨q, hq, hqHas, -, hql, -⟩ := hs.exists_par hb hbne
      have hp' := hp
      have hq' := hq
      rw [par_of_has ha] at hp'
      rw [par_of_has hb] at hq'
      rw [hp', hq', Option.bind_some, Option.bind_some]
      obtain ⟨m, hm, hmHas, hlca⟩ := ih hpHas hqHas (by omega) (by omega)
      refine ⟨m, hm, hmHas, hlca.left.step hp, hlca.right.step hq, fun x hxa hxb => ?_⟩
      -- a common ancestor of `a` and `b` is neither of them: they differ and are as long
      have hxa' : x ≠ a := fun h => he <| by
        subst h
        rw [hs.graded.eq_of_height_le hxb (by omega)]
      grind [Graded.eq_of_height_le, graded, IsLca.last, Anc.parent_of_ne]

/-- **`lca` is the last common ancestor**, and it is a block of the tree. -/
theorem lca_spec (ha : s.Has a) (hb : s.Has b) :
    ∃ l, s.lca a b = some l ∧ s.Has l ∧ IsLca s.par a b l := by
  obtain ⟨r, hr, hrid⟩ := hs.exists_lib
  have hra := hs.lib_anc hr hrid ha
  have hrb := hs.lib_anc hr hrid hb
  have hla := hs.graded.height_le hra
  have hlb := hs.graded.height_le hrb
  unfold lca
  rcases Nat.le_total a.length b.length with hle | hle
  · obtain ⟨b', hrb', hbb', hb'l⟩ := hs.graded.exists_at hrb hla hle
    have hb'Has := hs.anc_has hbb' hb
    rw [level_self hle, Option.bind_some, hs.level_spec hb hbb' hb'l (by omega), Option.bind_some]
    obtain ⟨l, hl, hlHas, hlca⟩ := hs.meet_spec (n := a.length + 1) ha hb'Has (by omega) (by omega)
    refine ⟨l, hl, hlHas, hlca.left, hlca.right.trans hbb', fun x hxa hxb => hlca.last x hxa ?_⟩
    exact hs.graded.anc_of_le hxb hbb' (by have := hs.graded.height_le hxa; omega)
  · obtain ⟨a', hra', haa', ha'l⟩ := hs.graded.exists_at hra hlb hle
    have ha'Has := hs.anc_has haa' ha
    rw [hs.level_spec ha haa' ha'l (by omega), Option.bind_some, level_self (by omega),
      Option.bind_some]
    obtain ⟨l, hl, hlHas, hlca⟩ := hs.meet_spec (n := a'.length + 1) ha'Has hb (by omega) (by omega)
    refine ⟨l, hl, hlHas, hlca.left.trans haa', hlca.right, fun x hxa hxb => hlca.last x ?_ hxb⟩
    exact hs.graded.anc_of_le hxa haa' (by have := hs.graded.height_le hxb; omega)

theorem isLca_of_lca {l : Branch Id} (ha : s.Has a) (hb : s.Has b)
    (h : s.lca a b = some l) : s.Has l ∧ IsLca s.par a b l := by
  obtain ⟨l', hl', hHas, hlca⟩ := hs.lca_spec ha hb
  rw [h] at hl'; cases hl'
  exact ⟨hHas, hlca⟩

variable (hb : s.Has b) {l : List (Branch Id)}
include hb

/-- The walk back to an ancestor gives the path from it. -/
theorem walkBackToBlock_spec
    (hl : Path s.par a l b) : s.walkBackToBlock b a.id = (l.map (·.id)).reverse := by
  have hgo : ∀ n, b.length < n →
      walkBackToBlock.go s a.id n (some b) = (l.map (·.id)).reverse := by
    induction hl with
    | nil =>
      intro n hn
      obtain ⟨n, rfl⟩ : ∃ m, n = m + 1 := ⟨n - 1, by omega⟩
      simp [walkBackToBlock.go]
    | @snoc l p c hl hp ih =>
      intro n hn
      obtain ⟨n, rfl⟩ : ∃ m, n = m + 1 := ⟨n - 1, by omega⟩
      obtain ⟨-, hpHas, -, hlen, -⟩ := hs.par_spec hp
      have hne : c.id ≠ a.id := fun he => by
        have h1 := hs.graded.height_le hl.anc
        rw [eq_of_id hb (hs.anc_has hl.anc hpHas) he] at hlen
        omega
      grind [walkBackToBlock.go, par_of_has]
  exact hgo _ (Nat.lt_succ_self _)

/-- The blocks from the LIB up to a block: the LIB, then the path from it. -/
theorem libToTipBlocks_spec {r : Branch Id} (hr : r.id = s.lib)
    (hl : Path s.par r l b) : s.libToTipBlocks b = r :: l := by
  have hgo : ∀ n, b.length < n → tipToLibBlocks.go s n b = (r :: l).reverse := by
    induction hl with
    | nil =>
      intro n hn
      obtain ⟨n, rfl⟩ : ∃ m, n = m + 1 := ⟨n - 1, by omega⟩
      rw [tipToLibBlocks.go, if_pos hr]
      rfl
    | @snoc l p c hl hp ih =>
      intro n hn
      obtain ⟨n, rfl⟩ : ∃ m, n = m + 1 := ⟨n - 1, by omega⟩
      grind [tipToLibBlocks.go, par_of_has, par_spec]
  grind [libToTipBlocks, tipToLibBlocks]

theorem mem_libToTipBlocks : a ∈ s.libToTipBlocks b ↔ Anc s.par a b := by
  obtain ⟨r, hr, hrid⟩ := hs.exists_lib
  have hrb := hs.lib_anc hr hrid hb
  obtain ⟨l, hl⟩ := Path.of_anc hrb
  rw [hs.libToTipBlocks_spec hb hrid hl, List.mem_cons, hl.mem_iff hs.graded]
  grind [lib_anc, anc_has]

theorem nodup_libToTipBlocks : (s.libToTipBlocks b).Nodup := by
  obtain ⟨r, hr, hrid⟩ := hs.exists_lib
  obtain ⟨l, hl⟩ := Path.of_anc (hs.lib_anc hr hrid hb)
  rw [hs.libToTipBlocks_spec hb hrid hl, List.nodup_cons]
  exact ⟨fun h => ((hl.mem_iff hs.graded).mp h).2.2 rfl, hl.nodup hs.graded⟩

theorem mem_libToTipBlocks_dropLast :
    a ∈ (s.libToTipBlocks b).dropLast ↔ Anc s.par a b ∧ a ≠ b := by
  obtain ⟨l, hl⟩ : ∃ l, s.libToTipBlocks b = l ++ [b] := by
    obtain ⟨r, hr, hrid⟩ := hs.exists_lib
    obtain ⟨l, hl⟩ := Path.of_anc (hs.lib_anc hr hrid hb)
    rw [hs.libToTipBlocks_spec hb hrid hl]
    cases hl with
    | nil => exact ⟨[], rfl⟩
    | snoc hl hp => exact ⟨r :: _, rfl⟩
  have hnd := hs.nodup_libToTipBlocks hb
  rw [← hs.mem_libToTipBlocks hb, hl, List.dropLast_concat, List.mem_append, List.mem_singleton]
  grind

end Ok

end Branches

end Logos.Engine
