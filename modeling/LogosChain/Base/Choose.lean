import Mathlib.Data.List.Basic

/-!
# Choosing by a pairwise preference

The preference need not be transitive, so the result can depend on the order. With a preference that
climbs (`Climbs`) no candidate is preferred to the result (`Climbs.choose_maximal`).
-/

namespace Base

variable {α : Type} (P : α → α → Bool) {l : List α}

/-- Goes through `l` and keeps `c` until a candidate is preferred to it. -/
def choose (c : α) (l : List α) : α := l.foldl (fun c x => if P c x then x else c) c

variable {P}

theorem choose_cons (c x : α) (l : List α) :
    choose P c (x :: l) = choose P (if P c x then x else c) l := rfl

theorem choose_append (c : α) (l l' : List α) :
    choose P c (l ++ l') = choose P (choose P c l) l' := List.foldl_append

theorem choose_induction {Q : α → Prop} {c : α} (hc : Q c)
    (hs : ∀ c x, Q c → x ∈ l → P c x = true → Q x) : Q (choose P c l) := by
  induction l generalizing c with
  | nil => exact hc
  | cons x l ih =>
    grind [choose_cons]

theorem choose_mem (c : α) (l : List α) : choose P c l = c ∨ choose P c l ∈ l :=
  choose_induction (P := P) (Q := fun y => y = c ∨ y ∈ l) (.inl rfl) fun _ _ _ hx _ => .inr hx

theorem choose_eq_self {c : α} (h : ∀ x ∈ l, P c x = false) : choose P c l = c := by
  induction l with
  | nil => rfl
  | cons x l ih =>
    grind [choose_cons]

/-- A choice with a preferred candidate is left for a candidate. -/
theorem choose_mem_of_prefers {c x : α} (hx : x ∈ l) (hP : P c x = true) : choose P c l ∈ l := by
  induction l with
  | nil => cases hx
  | cons y l ih =>
    grind [choose_cons, choose_mem]

/-- With the preferred candidates last, one of them wins. -/
theorem choose_append_of_prefers {c x : α} {m : List α} (h : ∀ y ∈ l, P c y = false) (hx : x ∈ m)
    (hP : P c x = true) : choose P c (l ++ m) ∈ m := by
  rw [choose_append, choose_eq_self h]
  exact choose_mem_of_prefers hx hP

/-- `P` prefers a greater height among what `W` relates, and `W` composes upwards. -/
structure Climbs (S : α → Prop) (P : α → α → Bool) (W : α → α → Prop) (h : α → Nat) : Prop where
  iff : ∀ x y, S x → S y → (P x y = true ↔ W x y ∧ h x < h y)
  refl : ∀ x, W x x
  trans : ∀ x y z, h x ≤ h y → W x y → W y z → W x z

namespace Climbs

variable {S : α → Prop} {W : α → α → Prop} {h : α → Nat} {c : α} {l : List α}

theorem choose_ge (hP : Climbs S P W h) (hc : S c) (hl : ∀ x ∈ l, S x) :
    S (choose P c l) ∧ h c ≤ h (choose P c l) ∧ W c (choose P c l) := by
  refine choose_induction (Q := fun x => S x ∧ h c ≤ h x ∧ W c x) ⟨hc, Nat.le_refl _, hP.refl c⟩ ?_
  rintro x y ⟨hx, hcx, hw⟩ hy hxy
  obtain ⟨hwy, hlt⟩ := (hP.iff x y hx (hl y hy)).mp hxy
  exact ⟨hl y hy, by omega, hP.trans c x y hcx hw hwy⟩

/-- No candidate is preferred to the result: it would have been preferred when its turn was. -/
theorem choose_maximal (hP : Climbs S P W h) (hc : S c) (hl : ∀ x ∈ l, S x) {y : α} (hy : y ∈ l) :
    P (choose P c l) y = false := by
  obtain ⟨l₁, l₂, rfl⟩ := List.append_of_mem hy
  have h₁ : ∀ x ∈ l₁, S x := fun x hx => hl x (List.mem_append_left _ hx)
  have h₂ : ∀ x ∈ l₂, S x := fun x hx =>
    hl x (List.mem_append_right _ (List.mem_cons_of_mem _ hx))
  obtain ⟨hx, -, -⟩ := hP.choose_ge hc h₁
  rw [choose_append, choose_cons]
  rw [← Bool.not_eq_true]
  intro hlast
  split at hlast
  · obtain ⟨hS, hge, -⟩ := hP.choose_ge (hl y hy) h₂
    have := ((hP.iff _ _ hS (hl y hy)).mp hlast).2
    omega
  · rename_i hno
    obtain ⟨hS, hge, hw⟩ := hP.choose_ge hx h₂
    obtain ⟨hwy, hlt⟩ := (hP.iff _ _ hS (hl y hy)).mp hlast
    exact hno ((hP.iff _ _ hx (hl y hy)).mpr ⟨hP.trans _ _ _ hge hw hwy, by omega⟩)

end Climbs

variable {l : List α} {key : α → Nat}

theorem foldlM_choose {ε : Type} {f : α → α → Except ε α} {Q : α → Prop}
    (hf : ∀ x y, Q x → y ∈ l → f x y = .ok (if P x y then y else x)) (hQ : ∀ y ∈ l, Q y) {x : α}
    (hx : Q x) : l.foldlM f x = .ok (choose P x l) := by
  induction l generalizing x with
  | nil => rfl
  | cons y l ih =>
    rw [List.foldlM_cons, hf x y hx List.mem_cons_self, choose_cons]
    refine ih (fun a b ha hb => hf a b ha (List.mem_cons_of_mem _ hb))
      (fun b hb => hQ b (List.mem_cons_of_mem _ hb)) ?_
    split
    · exact hQ y List.mem_cons_self
    · exact hx

/-- `Iterator::max_by_key`: the last element with the greatest key. -/
def maxByKey (key : α → Nat) : List α → Option α
  | [] => none
  | x :: l => some (choose (fun c x => decide (key c ≤ key x)) x l)

theorem maxByKey_eq_none : maxByKey key l = none ↔ l = [] := by
  cases l <;> simp [maxByKey]

theorem maxByKey_mem {a : α} (h : maxByKey key l = some a) : a ∈ l := by
  cases l with
  | nil => cases h
  | cons x l =>
    cases h
    rw [List.mem_cons]
    exact choose_mem x l

theorem le_maxByKey {a x : α} (h : maxByKey key l = some a) (hx : x ∈ l) : key x ≤ key a := by
  cases l with
  | nil => cases hx
  | cons y l =>
    cases h
    -- the key of the choice never falls, and it reaches each candidate's
    induction l generalizing x y with
    | nil =>
      rw [List.mem_singleton.mp hx]
      exact Nat.le_refl _
    | cons z l ih =>
      rw [choose_cons]
      split
      · rename_i hyz
        grind [List.mem_cons_self]
      · rename_i hyz
        rw [decide_eq_true_eq] at hyz
        rcases List.mem_cons.mp hx with rfl | hx
        · exact ih x List.mem_cons_self
        · rcases List.mem_cons.mp hx with rfl | hx
          · have := ih y List.mem_cons_self
            omega
          · exact ih y (List.mem_cons_of_mem _ hx)

end Base
