import Mathlib.Algebra.GroupWithZero.Nat
import Mathlib.Data.List.Forall2

/-!
# Computations that can fail

How a successful sequence of fallible steps decomposes, and when a list of fallible steps succeeds.
-/

namespace Base

variable {ε α β ε' : Type} {x : Except ε α} {b : β} {f : α → Except ε β} {a : α} {e e' : ε}
  {o : Option α} {c : Prop}

/-- The first step of a successful sequence succeeds, and so does the rest. -/
theorem bind_ok (h : x >>= f = .ok b) : ∃ a, x = .ok a ∧ f a = .ok b := by
  cases x with
  | error e => cases h
  | ok a => exact ⟨a, rfl, h⟩

theorem map_ok {f : α → β} (h : f <$> x = .ok b) : ∃ a, x = .ok a ∧ f a = b := by
  cases x with
  | error e => cases h
  | ok a => exact ⟨a, rfl, Except.ok.inj h⟩

theorem ok_bind (hx : x = .ok a) (hf : f a = .ok b) : x >>= f = .ok b := by
  subst hx
  exact hf

theorem bind_of_ok (hx : x = .ok a) : x >>= f = f a := by
  subst hx
  rfl

theorem error_bind (hx : x = .error e) : x >>= f = .error e := by
  subst hx
  rfl

/-- A sequence that fails does so in its first step or after it. -/
theorem bind_error (h : x >>= f = .error e) : x = .error e ∨ ∃ a, x = .ok a ∧ f a = .error e := by
  cases x with
  | error e' => cases h; exact .inl rfl
  | ok a => exact .inr ⟨a, rfl, h⟩

/-- A value, or the error to report when there is none. -/
def okOr (o : Option α) (e : ε) : Except ε α :=
  match o with
  | some a => .ok a
  | none => .error e

@[simp]
theorem okOr_ok : okOr o e = .ok a ↔ o = some a := by
  cases o <;> simp [okOr]

/-- Stops with an error when a condition holds. -/
def failIf (c : Prop) [Decidable c] (e : ε) : Except ε Unit := if c then .error e else .ok ()

@[simp]
theorem failIf_ok [Decidable c] {u : Unit} : failIf c e = .ok u ↔ ¬ c := by
  unfold failIf; split <;> simp_all

theorem failIf_of_not [Decidable c] (h : ¬ c) : failIf c e = .ok () :=
  failIf_ok.mpr h

@[simp]
theorem failIf_error [Decidable c] : failIf c e = .error e' ↔ c ∧ e = e' := by
  unfold failIf; split <;> simp_all

@[simp]
theorem okOr_error : okOr o e = .error e' ↔ o = none ∧ e = e' := by
  cases o <;> simp [okOr]

variable {f : ε → ε'}

theorem mapError_error {e : ε'} : x.mapError f = .error e ↔ ∃ e', x = .error e' ∧ f e' = e := by
  cases x <;> simp [Except.mapError]

@[simp]
theorem mapError_ok : x.mapError f = .ok a ↔ x = .ok a := by
  cases x <;> simp [Except.mapError]

theorem exists_ok (P : α → Prop) [DecidablePred P]
    (h : x.toOption.any (fun a => decide (P a)) = true) : ∃ a, x = .ok a ∧ P a := by
  cases x with
  | error e => cases h
  | ok a => exact ⟨a, rfl, of_decide_eq_true h⟩

variable {σ : Type} {f : σ → α → Except ε σ} {l : List α} {s t : σ}

/-- The first step of a successful loop succeeds, and so does the rest. -/
theorem foldlM_cons_ok
    (h : (a :: l).foldlM f s = .ok t) : ∃ s', f s a = .ok s' ∧ l.foldlM f s' = .ok t := by
  rw [List.foldlM_cons] at h
  exact bind_ok h

theorem foldlM_nil_ok (h : ([] : List α).foldlM f s = .ok t) : t = s := by
  cases h; rfl

section

variable (h : l.foldlM f s = .ok t)
include h

/-- A property that every step of a loop keeps holds after it. -/
theorem foldlM_invariant {I : σ → Prop} (h0 : I s)
    (hstep : ∀ a ∈ l, ∀ s s', I s → f s a = .ok s' → I s') : I t := by
  induction l generalizing s with
  | nil => rw [foldlM_nil_ok h]; exact h0
  | cons a l ih =>
    obtain ⟨s', h1, h2⟩ := foldlM_cons_ok h
    grind

/-- The same for a property of the state and of the items left. -/
theorem foldlM_remaining {I : σ → List α → Prop} (h0 : I s l)
    (hstep : ∀ s a l s', I s (a :: l) → f s a = .ok s' → I s' l) : I t [] := by
  induction l generalizing s with
  | nil => rw [foldlM_nil_ok h]; exact h0
  | cons a l ih =>
    obtain ⟨s', h1, h2⟩ := foldlM_cons_ok h
    exact ih h2 (hstep s a l s' h0 h1)

theorem foldlM_mem (ha : a ∈ l) : ∃ s s', f s a = .ok s' := by
  induction l generalizing s with
  | nil => cases ha
  | cons b l ih =>
    obtain ⟨s', h1, h2⟩ := foldlM_cons_ok h
    grind

end

/-- A property of state and items left takes a loop through every step. -/
theorem foldlM_total {I : σ → List α → Prop} (h0 : I s l)
    (hstep : ∀ s a l, I s (a :: l) → ∃ s', f s a = .ok s' ∧ I s' l) :
    ∃ t, l.foldlM f s = .ok t ∧ I t [] := by
  induction l generalizing s with
  | nil => exact ⟨s, rfl, h0⟩
  | cons a l ih =>
    grind [ok_bind]

variable {s' : σ} {l' r : List β} {γ : Type} {g : α → β} {P : σ → α → Prop}

/-- A loop follows another one if each of its steps does. The relation knows the items so far. -/
theorem foldlM_simulates {τ ε' : Type} {g : τ → α → Except ε' τ} {R : List α → σ → τ → Prop} {t : τ}
    {p : List α} (h : l.foldlM f s = .ok s') (h0 : R p s t)
    (hstep : ∀ p, ∀ a ∈ l, ∀ s t s', R p s t → f s a = .ok s' →
      ∃ t', g t a = .ok t' ∧ R (p ++ [a]) s' t') :
    ∃ t', l.foldlM g t = .ok t' ∧ R (p ++ l) s' t' := by
  induction l generalizing s t p with
  | nil =>
    rw [foldlM_nil_ok h, List.append_nil]
    exact ⟨t, rfl, h0⟩
  | cons a l ih =>
    obtain ⟨s1, h1, h2⟩ := foldlM_cons_ok h
    obtain ⟨t1, ht1, hR1⟩ := hstep p a List.mem_cons_self s t s1 h0 h1
    obtain ⟨t', ht', hR'⟩ := ih h2 hR1 fun p b hb => hstep p b (List.mem_cons_of_mem a hb)
    exact ⟨t', ok_bind ht1 ht', by rwa [List.append_cons]⟩

/-- Two loops over lists whose items belong together: what every two steps keep and show. -/
theorem foldlM_together {τ ε' : Type} {g : τ → β → Except ε' τ} {P Q : α → β → Prop}
    {R : σ → τ → Prop} {t t' : τ} (hl : List.Forall₂ P l l') (h : l.foldlM f s = .ok s')
    (h' : l'.foldlM g t = .ok t') (h0 : R s t)
    (hstep : ∀ a b s t s' t', P a b → R s t → f s a = .ok s' → g t b = .ok t' →
      R s' t' ∧ Q a b) : R s' t' ∧ List.Forall₂ Q l l' := by
  induction hl generalizing s t with
  | nil =>
    rw [foldlM_nil_ok h, foldlM_nil_ok h']
    exact ⟨h0, .nil⟩
  | cons hab _ ih =>
    obtain ⟨s1, h1, h2⟩ := foldlM_cons_ok h
    obtain ⟨t1, h3, h4⟩ := foldlM_cons_ok h'
    obtain ⟨hR, hQ⟩ := hstep _ _ _ _ _ _ hab h0 h1 h3
    obtain ⟨hend, hrest⟩ := ih h2 h4 hR
    exact ⟨hend, .cons hQ hrest⟩

/-- Lists with the same values belong together item by item. -/
theorem map_eq_map_iff_forall₂ {f : α → γ} {g : β → γ} :
    l.map f = l'.map g ↔ List.Forall₂ (fun a b => f a = g b) l l' := by
  rw [← List.forall₂_map_right_iff (R := fun a c => f a = c), ← List.forall₂_map_left_iff (R := Eq),
    List.forall₂_eq_eq_eq]

theorem forall₂_zipIdx {R : α → β → Prop} (h : List.Forall₂ R l l') (n : Nat) :
    List.Forall₂ (fun a b => R a.1 b.1 ∧ a.2 = b.2) (l.zipIdx n) (l'.zipIdx n) := by
  induction h generalizing n with
  | nil => exact .nil
  | cons hab _ ih => exact .cons ⟨hab, rfl⟩ (ih (n + 1))

/-- Items with at most one value each give a part of the values. -/
theorem flatMap_sublist_map {f : α → List β} (h : ∀ a, (f a).Sublist [g a])
    (l : List α) : (l.flatMap f).Sublist (l.map g) := by
  induction l with
  | nil => exact .slnil
  | cons a l ih => exact (h a).append ih

/-- Items with one image are the same, if no image comes twice. -/
theorem eq_of_nodup_filterMap {f : α → Option β} {a' : α} (h : (l.filterMap f).Nodup) (ha : a ∈ l)
    (ha' : a' ∈ l) (hb : f a = some b) (hb' : f a' = some b) : a = a' := by
  induction l with
  | nil => cases ha
  | cons c l ih => grind

/-- Whether the result of a call has a property, by making the call. -/
instance decidableForallOk {x : Except ε α} {P : α → Prop} [DecidablePred P] :
    Decidable (∀ a, x = .ok a → P a) :=
  match x with
  | .error _ => isTrue nofun
  | .ok a => decidable_of_iff (P a) (by simp)

/-! ## Conditions along a loop -/

/-- Every step of a loop is taken where `P` holds for the item. -/
def Along {σ : Type} (f : σ → α → Except ε σ) (P : σ → α → Prop) : σ → List α → Prop
  | _, [] => True
  | s, a :: l => P s a ∧ ∀ s', f s a = .ok s' → Along f P s' l

/-- Whether every step is, by taking the steps. -/
def decidableAlong {σ : Type} (f : σ → α → Except ε σ) (P : σ → α → Prop)
    [∀ s a, Decidable (P s a)] : ∀ s l, Decidable (Along f P s l)
  | _, [] => isTrue trivial
  | s, a :: l =>
    have := fun s' => decidableAlong f P s' l
    inferInstanceAs (Decidable (P s a ∧ ∀ s', f s a = .ok s' → Along f P s' l))

instance {σ : Type} {f : σ → α → Except ε σ} {P : σ → α → Prop} [∀ s a, Decidable (P s a)] {s : σ}
    {l : List α} : Decidable (Along f P s l) :=
  decidableAlong f P s l

theorem Along.of_forall (h : ∀ s a, P s a) (s : σ) (l : List α) : Along f P s l := by
  induction l generalizing s with
  | nil => trivial
  | cons a l ih => exact ⟨h s a, fun s' _ => ih s'⟩

/-- A property that every step keeps under the condition. -/
theorem foldlM_along {I : σ → Prop} (h : l.foldlM f s = .ok t) (hP : Along f P s l) (h0 : I s)
    (hstep : ∀ a ∈ l, ∀ s s', I s → P s a → f s a = .ok s' → I s') : I t := by
  induction l generalizing s with
  | nil => rw [foldlM_nil_ok h]; exact h0
  | cons a l ih =>
    obtain ⟨s', h1, h2⟩ := foldlM_cons_ok h
    exact ih h2 (hP.2 s' h1) (hstep a List.mem_cons_self s s' h0 hP.1 h1)
      fun b hb => hstep b (List.mem_cons_of_mem _ hb)

/-! ## The states of a loop -/

/-- The items of a loop, each with the state that it is taken in. -/
def visited {σ : Type} (f : σ → α → Except ε σ) : σ → List α → List (σ × α)
  | _, [] => []
  | s, a :: l => (s, a) ::
    match f s a with
    | .ok s' => visited f s' l
    | .error _ => []

theorem visited_cons (h : f s a = .ok s')
    (l : List α) : visited f s (a :: l) = (s, a) :: visited f s' l := by
  rw [visited, h]

theorem visited_snoc (h : l.foldlM f s = .ok t)
    (a : α) : visited f s (l ++ [a]) = visited f s l ++ [(t, a)] := by
  induction l generalizing s with
  | nil =>
    rw [foldlM_nil_ok h]
    cases hf : f s a <;> simp [visited, hf]
  | cons b l ih =>
    obtain ⟨s', h1, h2⟩ := foldlM_cons_ok h
    grind [visited_cons]

/-- An account from which each step takes no more than is there and than the step adds. -/
theorem foldlM_account [DecidableEq β] (cost : α → List β) (gain : σ × α → List β) (w : σ → Nat)
    {b : β} (h : l.foldlM f s = .ok t) (hstep : ∀ a ∈ l, ∀ s s', f s a = .ok s' →
      (cost a).count b + w s' ≤ w s + (gain (s, a)).count b) :
    (l.flatMap cost).count b + w t ≤ w s + ((visited f s l).flatMap gain).count b := by
  induction l generalizing s with
  | nil => rw [foldlM_nil_ok h]; simp [visited]
  | cons a l ih =>
    obtain ⟨s1, h1, h2⟩ := foldlM_cons_ok h
    have hfirst := hstep a List.mem_cons_self s s1 h1
    have hrest := ih h2 fun a' ha' => hstep a' (List.mem_cons_of_mem _ ha')
    simp only [visited_cons h1, List.flatMap_cons, List.count_append]
    omega

/-! ## Results of a loop -/

theorem map_zipIdx_fst (f : α → β) (l : List α) : (l.zipIdx.map fun a => f a.1) = l.map f := by
  show l.zipIdx.map (f ∘ Prod.fst) = _
  rw [← List.map_map, List.zipIdx_map_fst]

theorem foldlM_sum {f : Nat → α → Except ε Nat} {g : α → Nat}
    (hf : ∀ s a t, f s a = .ok t → t = s + g a) {s t : Nat}
    (h : l.foldlM f s = .ok t) : t = s + (l.map g).sum := by
  induction l generalizing s with
  | nil => rw [foldlM_nil_ok h]; rfl
  | cons a l ih =>
    obtain ⟨s', h1, h2⟩ := foldlM_cons_ok h
    grind

variable {f : α → Except ε Unit}

theorem forM_ok {u : Unit} : l.forM f = .ok u ↔ ∀ a ∈ l, f a = .ok () := by
  induction l with
  | nil => simp [List.forM, pure, Except.pure]
  | cons a l ih =>
    rw [List.forM, List.forall_mem_cons, ← ih]
    cases f a <;> simp [bind, Except.bind]

theorem forM_error (h : l.forM f = .error e) : ∃ a ∈ l, f a = .error e := by
  induction l with
  | nil => cases h
  | cons a l ih =>
    rcases bind_error h with h1 | ⟨_, -, h2⟩
    · exact ⟨a, List.mem_cons_self, h1⟩
    · grind

variable {f : α → Except ε β}

theorem mapM_ok (h : ∀ x ∈ l, f x = .ok (g x)) : l.mapM f = .ok (l.map g) := by
  induction l with
  | nil => rfl
  | cons x l ih =>
    rw [List.mapM_cons, h x List.mem_cons_self, ih fun y hy => h y (List.mem_cons_of_mem _ hy)]
    rfl

/-- The results of a list of steps, seen through functions. -/
theorem mapM_ok_map {g : α → γ} {h : β → γ} (hf : ∀ a b, f a = .ok b → h b = g a)
    (hr : l.mapM f = .ok r) : r.map h = l.map g := by
  induction l generalizing r with
  | nil => cases hr; rfl
  | cons a l ih =>
    rw [List.mapM_cons] at hr
    obtain ⟨b, h1, h2⟩ := bind_ok hr
    obtain ⟨bs, h3, h4⟩ := bind_ok h2
    cases h4
    rw [List.map_cons, List.map_cons, hf a b h1, ih h3]

theorem mapM_mem (hr : l.mapM f = .ok r) (hb : b ∈ r) : ∃ a ∈ l, f a = .ok b := by
  induction l generalizing r with
  | nil => cases hr; cases hb
  | cons a l ih =>
    rw [List.mapM_cons] at hr
    obtain ⟨first, h1, h2⟩ := bind_ok hr
    obtain ⟨rest, h3, h4⟩ := bind_ok h2
    cases h4
    grind

/-! ## Errors that do not occur -/

/-- A computation does not end with one of some errors. -/
def Avoids (bad : ε → Prop) (x : Except ε α) : Prop := ∀ e, x = .error e → ¬ bad e

namespace Avoids

variable {bad : ε → Prop}

theorem ok (a : α) : Avoids bad (.ok a : Except ε α) := nofun

theorem bind {x : Except ε α} {f : α → Except ε β} (hx : Avoids bad x)
    (hf : ∀ a, x = .ok a → Avoids bad (f a)) : Avoids bad (x >>= f) := by
  intro e he
  rcases bind_error he with h | ⟨a, ha, h⟩
  · exact hx e h
  · exact hf a ha e h

theorem failIf {c : Prop} [Decidable c] {e : ε} (h : c → ¬ bad e) : Avoids bad (failIf c e) := by
  intro e' he
  obtain ⟨hc, rfl⟩ := failIf_error.mp he
  exact h hc

theorem okOr {o : Option α} {e : ε} (h : o = none → ¬ bad e) : Avoids bad (okOr o e) := by
  intro e' he
  obtain ⟨ho, rfl⟩ := okOr_error.mp he
  exact h ho

theorem mapError {ε' : Type} {f : ε' → ε} (x : Except ε' α) (h : ∀ e, ¬ bad (f e)) :
    Avoids bad (x.mapError f) := by
  intro e he
  obtain ⟨e', -, rfl⟩ := mapError_error.mp he
  exact h e'

/-- A loop avoids errors that its steps avoid in the states it can be in with the items left. -/
theorem foldlM {σ : Type} {f : σ → α → Except ε σ} {I : σ → List α → Prop} {l : List α} {s : σ}
    (h0 : I s l) (hkeep : ∀ s a l s', I s (a :: l) → f s a = .ok s' → I s' l)
    (hstep : ∀ s a l, I s (a :: l) → Avoids bad (f s a)) : Avoids bad (l.foldlM f s) := by
  induction l generalizing s with
  | nil => exact ok s
  | cons a l ih =>
    grind [bind]

end Avoids

/-! ## Searches -/

/-- A search that stops early stops at the first place that fails or has something. -/
theorem findSomeM?_range {f : Nat → Except ε (Option β)} {m : Nat} {r : Except ε (Option β)}
    (hr : r ≠ .ok none) : (List.range m).findSomeM? f = r ↔
      ∃ k < m, f k = r ∧ ∀ j < k, f j = .ok none := by
  -- The induction is on the length of the range, from any start.
  have hgo : ∀ m s, (List.range' s m).findSomeM? f = r ↔
      ∃ k < m, f (s + k) = r ∧ ∀ j < k, f (s + j) = .ok none := by
    intro m
    induction m with
    | zero =>
      intro s
      simp only [List.range'_zero, List.findSomeM?_nil, Nat.not_lt_zero, false_and, exists_false,
        iff_false]
      exact hr.symm
    | succ m ih =>
      intro s
      rw [List.range'_succ, List.findSomeM?_cons]
      constructor
      · intro h
        cases hs : f s with
        | error e =>
          rw [hs] at h
          exact ⟨0, Nat.succ_pos m, hs.trans h, by simp⟩
        | ok o =>
          rw [hs] at h
          cases o with
          | some x => exact ⟨0, Nat.succ_pos m, hs.trans h, by simp⟩
          | none =>
            obtain ⟨k, hk, hfk, hbefore⟩ := (ih (s + 1)).mp h
            refine ⟨k + 1, Nat.succ_lt_succ hk, ?_, fun j hj => ?_⟩
            · rw [← hfk, Nat.add_right_comm, Nat.add_assoc]
            · cases j with
              | zero => exact hs
              | succ j => grind
      · rintro ⟨k, hk, hfk, hbefore⟩
        cases k with
        | zero =>
          rw [Nat.add_zero] at hfk
          rw [hfk]
          match r, hr with
          | .error _, _ => rfl
          | .ok (some _), _ => rfl
        | succ k =>
          have hs : f s = .ok none := hbefore 0 (Nat.succ_pos k)
          rw [hs]
          refine (ih (s + 1)).mpr ⟨k, Nat.lt_of_succ_lt_succ hk, ?_, fun j hj => ?_⟩
          · rw [← hfk, Nat.add_right_comm, Nat.add_assoc]
          · grind
  rw [List.range_eq_range', hgo m 0]
  simp only [Nat.zero_add]

end Base
