import Mathlib.Data.List.Chain
import Mathlib.Data.List.Nodup

/-!
# Ancestors in a forest given by parent links

A forest is a partial function `par` from nodes to parents. `Anc par a b`: following parents leads
from `b` to `a`. `Graded par h`: `h` grows by one along each link, so that the ancestors of a node
are ordered as their heights.
-/

namespace Base

variable {α : Type} {par par' : α → Option α} {h : α → Nat}

/-- `p` is the parent of `c`. -/
def Link (par : α → Option α) (p c : α) : Prop := par c = some p

/-- `a` is `b` or an ancestor of `b`. -/
def Anc (par : α → Option α) : α → α → Prop := Relation.ReflTransGen (Link par)

namespace Anc

@[refl] theorem refl (a : α) : Anc par a a := Relation.ReflTransGen.refl

variable {a c b p : α}

@[trans] theorem trans (h₁ : Anc par a b) (h₂ : Anc par b c) : Anc par a c :=
  Relation.ReflTransGen.trans h₁ h₂

theorem of_parent (hp : par c = some p) : Anc par p c := Relation.ReflTransGen.single hp

theorem step (ha : Anc par a p) (hp : par c = some p) : Anc par a c :=
  Relation.ReflTransGen.tail ha hp

theorem cases_parent (ha : Anc par a c) : a = c ∨ ∃ p, par c = some p ∧ Anc par a p := by
  rcases Relation.ReflTransGen.cases_tail ha with rfl | ⟨p, hp, hpc⟩
  · exact .inl rfl
  · exact .inr ⟨p, hpc, hp⟩

theorem parent_of_ne (ha : Anc par a c) (hp : par c = some p) (hne : a ≠ c) : Anc par a p := by
  rcases ha.cases_parent with rfl | ⟨q, hq, haq⟩
  · exact absurd rfl hne
  · rw [hp] at hq; cases hq; exact haq

/-- The ancestors of a node are itself and those of its parent. -/
theorem iff_of_parent (hp : par c = some p) : Anc par a c ↔ a = c ∨ Anc par a p := by
  grind [refl, parent_of_ne, step]

theorem eq_of_root (ha : Anc par a c) (hc : par c = none) : a = c := by
  rcases ha.cases_parent with rfl | ⟨p, hp, -⟩
  · rfl
  · rw [hc] at hp; cases hp

theorem total (ha : Anc par a c) (hb : Anc par b c) : Anc par a b ∨ Anc par b a := by
  induction ha with
  | refl => exact .inr hb
  | tail hap hpc ih =>
    rcases hb.cases_parent with rfl | ⟨q, hq, hbq⟩
    · exact .inl (Relation.ReflTransGen.tail hap hpc)
    · rw [show par _ = _ from hpc] at hq
      cases hq
      exact ih hbq

/-- A path stays a path where the nodes above `a` keep their parents. -/
theorem congr_of (hab : Anc par a b)
    (hk : ∀ c p, Anc par a p → par c = some p → Anc par c b → par' c = some p) : Anc par' a b := by
  induction hab with
  | refl => exact Anc.refl _
  | tail hap hpc ih =>
    refine .tail (ih fun c p hp hc hcb => hk c p hp hc (hcb.step hpc)) ?_
    exact hk _ _ hap hpc (.refl _)

theorem mono (hab : Anc par a b) (hk : ∀ c p, par c = some p → par' c = some p) : Anc par' a b :=
  hab.congr_of fun c p _ hc _ => hk c p hc

end Anc

/-- The height `h` grows by one along each link. -/
def Graded (par : α → Option α) (h : α → Nat) : Prop := ∀ c p, par c = some p → h c = h p + 1

namespace Graded

variable (hg : Graded par h) {a b : α}
include hg

theorem height_le (hab : Anc par a b) : h a ≤ h b := by
  induction hab with
  | refl => exact Nat.le_refl _
  | tail _ hpc ih => have := hg _ _ hpc; omega

theorem height_lt (hab : Anc par a b) (hne : a ≠ b) : h a < h b := by
  rcases hab.cases_parent with rfl | ⟨p, hp, hap⟩
  · exact absurd rfl hne
  · have h1 := hg _ _ hp
    have h2 := hg.height_le hap
    omega

/-- No ancestor of the parent of a node is the node itself. -/
theorem ne_of_anc_parent {p c : α} (hp : par c = some p) (ha : Anc par a p) : a ≠ c := by
  rintro rfl
  have h1 := hg.height_le ha
  have h2 := hg _ _ hp
  omega

theorem eq_of_height_le (hab : Anc par a b) (hle : h b ≤ h a) : a = b := by
  by_contra hne
  have := hg.height_lt hab hne
  omega

theorem antisymm (hab : Anc par a b) (hba : Anc par b a) : a = b :=
  hg.eq_of_height_le hab (hg.height_le hba)

/-- Of two ancestors of one node, the lower is an ancestor of the higher. -/
theorem anc_of_le {c : α} (ha : Anc par a c) (hb : Anc par b c)
    (hle : h a ≤ h b) : Anc par a b := by grind [Anc.total, eq_of_height_le]

/-- There is an ancestor at every height from a given one up. -/
theorem exists_at {c : α} (hac : Anc par a c) {n : Nat} (h1 : h a ≤ n)
    (h2 : n ≤ h c) : ∃ b, Anc par a b ∧ Anc par b c ∧ h b = n := by
  induction hac with
  | refl => exact ⟨a, .refl a, .refl a, by omega⟩
  | @tail p c hap hpc ih =>
    have hs := hg _ _ hpc
    by_cases hn : n = h c
    · exact ⟨c, .tail hap hpc, .refl c, hn.symm⟩
    · obtain ⟨b, hab, hbp, hb⟩ := ih (by omega)
      exact ⟨b, hab, hbp.step hpc, hb⟩

end Graded

/-- `l` is the last common ancestor of `a` and `b`. -/
structure IsLca (par : α → Option α) (a b l : α) : Prop where
  left : Anc par l a
  right : Anc par l b
  last : ∀ x, Anc par x a → Anc par x b → Anc par x l

namespace IsLca

/-- An ancestor of `b` is the last common ancestor of itself and `b`. -/
theorem of_anc {a b : α} (hab : Anc par a b) : IsLca par a b a :=
  ⟨.refl a, hab, fun _ ha _ => ha⟩

theorem unique (hg : Graded par h) {a b l l' : α} (hl : IsLca par a b l) (hl' : IsLca par a b l') :
    l = l' :=
  hg.antisymm (hl'.last l hl.left hl.right) (hl.last l' hl'.left hl'.right)

end IsLca

/-- `l` is the path from `a` up to `b`, oldest first, without `a`. -/
inductive Path (par : α → Option α) (a : α) : List α → α → Prop where
  | nil : Path par a [] a
  | snoc {l : List α} {p c : α} : Path par a l p → par c = some p → Path par a (l ++ [c]) c

namespace Path

variable {a b : α} {l : List α}

theorem anc (hl : Path par a l b) : Anc par a b := by
  induction hl with
  | nil => exact .refl a
  | snoc _ hp ih => exact ih.step hp

theorem append {c : α} {l' : List α} (hl : Path par a l b) (hl' : Path par b l' c) :
    Path par a (l ++ l') c := by
  induction hl' with
  | nil => simpa using hl
  | snoc _ hp ih => rw [← List.append_assoc]; exact ih.snoc hp

/-- An ancestor of `b` is the last common ancestor of itself and `b`. -/
theorem of_anc (hab : Anc par a b) : ∃ l, Path par a l b := by
  induction hab with
  | refl => exact ⟨[], .nil⟩
  | tail _ hp ih => obtain ⟨l, hl⟩ := ih; exact ⟨_, hl.snoc hp⟩

theorem mono (hl : Path par a l b)
    (hk : ∀ c p, par c = some p → par' c = some p) : Path par' a l b := by
  induction hl with
  | nil => exact .nil
  | snoc _ hp ih => exact ih.snoc (hk _ _ hp)

section

variable (hg : Graded par h) (hl : Path par a l b)
include hg hl

/-- A path has the proper descendants of its start up to its end. -/
theorem mem_iff {x : α} : x ∈ l ↔ Anc par a x ∧ Anc par x b ∧ x ≠ a := by
  induction hl with
  | nil =>
    grind [Graded.antisymm]
  | @snoc l p c hl hp ih =>
    rw [List.mem_append, List.mem_singleton, ih]
    constructor
    · rintro (⟨h1, h2, hne⟩ | rfl)
      · exact ⟨h1, h2.step hp, hne⟩
      · refine ⟨hl.anc.step hp, .refl _, fun he => ?_⟩
        have h1 := hg.height_le hl.anc
        have h2 := hg _ _ hp
        rw [he] at h2
        omega
    · rintro ⟨h1, h2, hne⟩
      rcases h2.cases_parent with rfl | ⟨q, hq, hxq⟩
      · exact .inr rfl
      · rw [hp] at hq; cases hq
        exact .inl ⟨h1, hxq, hne⟩

theorem nodup : l.Nodup := by
  induction hl with
  | nil => exact List.nodup_nil
  | @snoc l p c hl hp ih =>
    rw [List.nodup_append]
    refine ⟨ih, by simp, fun x hx y hy => ?_⟩
    rw [List.mem_singleton] at hy
    subst hy
    rintro rfl
    have h1 := hg.height_le ((hl.mem_iff hg).mp hx).2.1
    have h2 := hg _ _ hp
    omega

theorem length_add : h a + l.length = h b := by
  induction hl with
  | nil => rfl
  | snoc _ hp ih => rw [hg _ _ hp, List.length_append, List.length_singleton]; omega

theorem unique {l' : List α} (hl' : Path par a l' b) : l = l' := by
  induction hl generalizing l' with
  | nil =>
    have hlen := hl'.length_add hg
    exact (List.eq_nil_of_length_eq_zero (by omega)).symm
  | @snoc l p c hl hp ih =>
    cases hl' with
    | nil =>
      have h1 := hl.length_add hg
      have h2 := hg _ _ hp
      omega
    | snoc hl'' hp' =>
      rw [hp] at hp'; cases hp'
      rw [ih hl'']

end

theorem map {β : Type} {par' : β → Option β} (f : α → β) (hl : Path par a l b)
    (hk : ∀ c p, par c = some p → par' (f c) = some (f p)) : Path par' (f a) (l.map f) (f b) := by
  induction hl with
  | nil => exact .nil
  | snoc _ hp ih =>
    rw [List.map_append]
    exact ih.snoc (hk _ _ hp)

theorem getLast? (hl : Path par a l b) : (a :: l).getLast? = some b := by
  cases hl with
  | nil => rfl
  | snoc => simp [List.getLast?_cons]

theorem of_nil (hl : Path par a [] b) : b = a := (Option.some.inj hl.getLast?).symm

theorem isChain (hl : Path par a l b) : (a :: l).IsChain (Link par) := by
  induction hl with
  | nil => exact List.isChain_singleton a
  | @snoc l p c hl hp ih =>
    rw [← List.cons_append, List.isChain_append]
    refine ⟨ih, List.isChain_singleton c, fun x hx y hy => ?_⟩
    rw [hl.getLast?] at hx
    cases hx
    cases hy
    exact hp

/-- A list of nodes, each the parent of the next, is a path. -/
theorem of_isChain (hl : (a :: l).IsChain (Link par))
    (hb : (a :: l).getLast? = some b) : Path par a l b := by
  induction l generalizing a with
  | nil =>
    cases hb
    exact .nil
  | cons c l ih =>
    obtain ⟨hp, hl⟩ := List.isChain_cons_cons.mp hl
    have hc : Path par a [c] c := snoc .nil hp
    exact hc.append (ih hl (by rwa [List.getLast?_cons_cons] at hb))

/-- The part of a path up to one of its nodes, and the rest. -/
theorem split {x : α} (hl : Path par a l b) (hx : x ∈ a :: l) :
    ∃ l₁ l₂, l = l₁ ++ l₂ ∧ Path par a l₁ x ∧ Path par x l₂ b := by
  induction hl with
  | nil =>
    obtain rfl := List.mem_singleton.mp hx
    exact ⟨[], [], rfl, .nil, .nil⟩
  | @snoc l p c hl hp ih =>
    rw [← List.cons_append, List.mem_append, List.mem_singleton] at hx
    rcases hx with hx | rfl
    · obtain ⟨l₁, l₂, rfl, h₁, h₂⟩ := ih hx
      exact ⟨l₁, l₂ ++ [c], by rw [List.append_assoc], h₁, h₂.snoc hp⟩
    · exact ⟨l ++ [x], [], by rw [List.append_nil], hl.snoc hp, .nil⟩

/-- What is left of a path after its first `n` nodes, the last of which is `x`. -/
theorem drop {x : α} {n : Nat} (hl : Path par a l b)
    (hx : (l.take n).getLast? = some x) : Path par x (l.drop n) b := by
  obtain ⟨init, hinit⟩ := List.getLast?_eq_some_iff.mp hx
  grind [List.take_append_drop, of_isChain, isChain, getLast?, List.IsChain.right_of_append]

section

variable (ha : par a = none) (hl : Path par a l b)
include ha hl

theorem mem_of_anc {x : α} (hx : Anc par x b) : x ∈ a :: l := by
  induction hl with
  | nil =>
    rw [hx.eq_of_root ha]
    exact List.mem_cons_self
  | @snoc l p c hl hp ih =>
    grind [Anc.iff_of_parent]

theorem unique_of_root {l' : List α} (hl' : Path par a l' b) : l = l' := by
  induction hl generalizing l' with
  | nil =>
    cases hl' with
    | nil => rfl
    | snoc _ hp => rw [ha] at hp; cases hp
  | snoc _ hp ih =>
    cases hl' with
    | nil => rw [ha] at hp; cases hp
    | snoc hl'' hp' =>
      rw [hp] at hp'
      cases hp'
      rw [ih hl'']

theorem nodup_of_root : (a :: l).Nodup := by
  induction hl with
  | nil => exact List.nodup_singleton a
  | @snoc l p c hl hp ih =>
    rw [← List.cons_append, List.nodup_append]
    refine ⟨ih, List.nodup_singleton c, fun x hx y hy => ?_⟩
    obtain rfl := List.mem_singleton.mp hy
    rintro rfl
    -- the path to the earlier `x` and the one through `p` would differ
    obtain ⟨l₁, l₂, rfl, h₁, -⟩ := hl.split hx
    have he := congrArg List.length (unique_of_root ha h₁ (hl.snoc hp))
    grind

end

theorem nodup_of_rooted {r : α} {l₀ : List α} (hr : par r = none) (h₀ : Path par r l₀ a)
    (hl : Path par a l b) : (a :: l).Nodup := by
  obtain ⟨init, hinit⟩ := List.getLast?_eq_some_iff.mp h₀.getLast?
  have hnodup := (h₀.append hl).nodup_of_root hr
  grind

theorem eq_nil_iff (hg : Graded par h) (hl : Path par a l b) : l = [] ↔ a = b := by
  constructor
  · rintro rfl
    have hlen := hl.length_add hg
    exact hg.eq_of_height_le hl.anc (by simp only [List.length_nil] at hlen; omega)
  · rintro rfl
    exact hl.unique hg .nil

end Path

namespace IsLca

variable {a b l : α} {p₁ p₂ : List α}

variable (hg : Graded par h) (hl : IsLca par a b l) (h₁ : Path par l p₁ a) (h₂ : Path par l p₂ b)
include hg hl h₁ h₂

/-- The paths from the last common ancestor are disjoint. -/
theorem disjoint : p₁.Disjoint p₂ := by
  intro x hx₁ hx₂
  obtain ⟨hlx, hxa, hne⟩ := (h₁.mem_iff hg).mp hx₁
  grind [Path.mem_iff, Graded.antisymm, last]

theorem nil_iff : p₁ = [] ∧ p₂ = [] ↔ a = b := by
  rw [h₁.eq_nil_iff hg, h₂.eq_nil_iff hg]
  constructor
  · rintro ⟨rfl, rfl⟩; rfl
  · rintro rfl
    have he : l = a := hg.antisymm hl.left (hl.last a (.refl a) (.refl a))
    exact ⟨he, he⟩

end IsLca

end Base
