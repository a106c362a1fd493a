import Mathlib.Data.List.Chain
import Mathlib.Data.List.TakeWhile
import Mathlib.Tactic.Ring

/-!
# Piecewise uniform grids

A grid is laid out piece by piece. A piece starts at a number and at a position, and its points are
one length apart up to the next piece. `positionOf` and `numberAt` pick their piece by different
keys and are inverse all the same.
-/

namespace Base

variable {ι : Type} {cond : ι → Bool} {l : List ι} {a : ι}

/-- The last item before the first that does not meet the condition. -/
def lastWhile (cond : ι → Bool) (l : List ι) : Option ι := (l.takeWhile cond).getLast?

/-- The item found splits the list: the condition holds up to it and not for the next one. -/
theorem lastWhile_split (h : lastWhile cond l = some a) :
    ∃ pre post, l = pre ++ a :: post ∧ cond a = true ∧ ∀ b ∈ post.head?, cond b = false := by
  obtain ⟨pre, hpre⟩ := List.getLast?_eq_some_iff.mp h
  refine ⟨pre, l.dropWhile cond, ?_, ?_, ?_⟩
  · grind [List.takeWhile_append_dropWhile]
  · have ha : a ∈ l.takeWhile cond := by rw [hpre]; simp
    exact List.mem_takeWhile_imp ha
  · intro b hb
    have hne : l.dropWhile cond ≠ [] := by rintro h0; simp [h0] at hb
    grind [List.head_dropWhile_not, List.head?_eq_some_head]

theorem lastWhile_of_split {pre post : List ι} (hpre : ∀ c ∈ pre, cond c = true)
    (ha : cond a = true) (hpost : ∀ b ∈ post.head?, cond b = false) :
    lastWhile cond (pre ++ a :: post) = some a := by
  have hstop : post.takeWhile cond = [] := by
    cases post with
    | nil => rfl
    | cons b post => simp [hpost b rfl]
  grind [lastWhile, List.takeWhile_append_of_pos, List.takeWhile_cons]

theorem exists_lastWhile (ha : cond a = true) : ∃ b, lastWhile cond (a :: l) = some b := by
  simp [lastWhile, ha, List.getLast?_cons]

/-- The condition holds for the first item, if for any. -/
theorem head_of_lastWhile {b : ι} (h : lastWhile cond (a :: l) = some b) : cond a = true := by
  by_contra ha
  simp [lastWhile, ha] at h

/-- The first number, position and step of each piece. -/
structure Grid (ι : Type) where
  number : ι → Nat
  position : ι → Int
  length : ι → Nat

namespace Grid

variable (g : Grid ι) {l pre post : List ι} {a b : ι} {n m : Nat} {x p : Int}

/-- The position of a number, counted from the start of a piece. -/
def point (a : ι) (n : Nat) : Int := g.position a + ((n - g.number a : Nat) : Int) * g.length a

/-- A piece starts where the points of another one lead to. -/
structure Leads (a b : ι) : Prop where
  number_lt : g.number a < g.number b
  position_eq : g.position b = g.point a (g.number b)

/-- Every piece leads to the next one, and no length is zero. -/
structure Laid (l : List ι) : Prop where
  chain : l.IsChain g.Leads
  length_pos : ∀ a ∈ l, 0 < g.length a

/-- The position of a number, by the last piece that starts before it. -/
def positionOf (l : List ι) (n : Nat) : Option Int :=
  (lastWhile (fun a => g.number a ≤ n) l).map fun a => g.point a n

/-- The number of the last point that is not after a position. -/
def numberAt (l : List ι) (x : Int) : Option Nat :=
  (lastWhile (fun a => g.position a ≤ x) l).map fun a =>
    g.number a + (x - g.position a).toNat / g.length a

theorem point_self (a : ι) : g.point a (g.number a) = g.position a := by simp [point]

theorem point_succ (h : g.number a ≤ n) : g.point a (n + 1) = g.point a n + g.length a := by
  rw [point, point, Nat.sub_add_comm h]
  push_cast
  ring

theorem point_mono (h : m ≤ n) : g.point a m ≤ g.point a n := by
  have hsub : ((m - g.number a : Nat) : Int) ≤ ((n - g.number a : Nat) : Int) := by omega
  have := Int.mul_le_mul_of_nonneg_right hsub (Int.natCast_nonneg (g.length a))
  unfold point
  omega

/-- The number of a position is that of the point before it. -/
theorem number_of_point (ha : 0 < g.length a) (hx : g.position a ≤ x) :
    let m := g.number a + (x - g.position a).toNat / g.length a
    g.point a m ≤ x ∧ x < g.point a (m + 1) := by
  intro m
  have hm : g.number a ≤ m := Nat.le_add_right _ _
  have hdiv : (x - g.position a).toNat / g.length a * g.length a ≤ (x - g.position a).toNat :=
    Nat.div_mul_le_self _ _
  have hlt := Nat.lt_div_mul_add ha (a := (x - g.position a).toNat)
  grind [point, point_succ]

variable {g}

/-- A piece starts after a number exactly if after its positions. -/
theorem Leads.lt_iff (h : g.Leads a b) (h1 : g.point a n ≤ x) (h2 : x < g.point a (n + 1)) :
    n < g.number b ↔ x < g.position b := by
  rw [h.position_eq]
  constructor
  · intro hn
    exact lt_of_lt_of_le h2 (g.point_mono hn)
  · intro hx
    by_contra hn
    have := g.point_mono (a := a) (not_lt.mp hn)
    omega

theorem Leads.position_lt (h : g.Leads a b) (ha : 0 < g.length a) : g.position a < g.position b := by
  have h1 : g.point a (g.number a) ≤ g.position a := (g.point_self a).le
  have h2 : g.position a < g.point a (g.number a + 1) := by
    rw [g.point_succ le_rfl, g.point_self]
    omega
  exact (h.lt_iff h1 h2).mp h.number_lt

section

variable (hl : g.Laid (pre ++ a :: post))
include hl

/-- The pieces before a piece start earlier. -/
theorem Laid.before : ∀ c ∈ pre, g.number c < g.number a ∧ g.position c < g.position a := by
  induction pre with
  | nil => simp
  | cons c pre ih =>
    have htail : g.Laid (pre ++ a :: post) :=
      ⟨hl.chain.tail, fun b hb => hl.length_pos b (List.mem_cons_of_mem _ hb)⟩
    have hc := hl.length_pos c List.mem_cons_self
    intro d hd
    rcases List.mem_cons.mp hd with rfl | hd
    · -- The piece after this one is the piece itself or one before it.
      cases pre with
      | nil =>
        have hlead : g.Leads d a := hl.chain.rel_head? rfl
        exact ⟨hlead.number_lt, hlead.position_lt hc⟩
      | cons e pre =>
        have hlead : g.Leads d e := hl.chain.rel_head? rfl
        have he := ih htail e List.mem_cons_self
        exact ⟨hlead.number_lt.trans he.1, (hlead.position_lt hc).trans he.2⟩
    · exact ih htail d hd

theorem Laid.leads_next : ∀ b ∈ post.head?, g.Leads a b :=
  fun _ hb => hl.chain.right_of_append.rel_head? hb

/-- The piece of a number, from where the list is split. -/
theorem Laid.lastWhile_number (ha : g.number a ≤ n) (hnext : ∀ b ∈ post.head?, n < g.number b) :
    lastWhile (fun c => g.number c ≤ n) (pre ++ a :: post) = some a := by
  grind [lastWhile_of_split, before, LE.le.trans, LT.lt.le]

/-- The piece of a position, from where the list is split. -/
theorem Laid.lastWhile_position (ha : g.position a ≤ x)
    (hnext : ∀ b ∈ post.head?, x < g.position b) :
    lastWhile (fun c => g.position c ≤ x) (pre ++ a :: post) = some a := by
  apply lastWhile_of_split
  · intro c hc
    have := (hl.before c hc).2
    simpa using this.le.trans ha
  · simpa using ha
  · intro b hb
    simpa using hnext b hb

end

theorem Laid.positionOf_succ (hl : g.Laid l) (h : lastWhile (fun a => g.number a ≤ n) l = some a) :
    g.positionOf l (n + 1) = some (g.point a n + g.length a) := by
  obtain ⟨pre, post, rfl, ha, hpost⟩ := lastWhile_split h
  have ha : g.number a ≤ n := by simpa using ha
  have hpost : ∀ b ∈ post.head?, n < g.number b := by simpa using hpost
  rw [← g.point_succ ha, positionOf]
  by_cases hnext : ∀ b ∈ post.head?, n + 1 < g.number b
  · rw [hl.lastWhile_number (by omega) hnext]
    rfl
  · -- The next number is the first one of the next piece.
    obtain ⟨b, hb, hle⟩ : ∃ b ∈ post.head?, g.number b ≤ n + 1 := by simpa using hnext
    have hnumber : g.number b = n + 1 := by
      have := hpost b hb
      omega
    obtain ⟨post, rfl⟩ : ∃ rest, post = b :: rest := by
      cases post with
      | nil => cases hb
      | cons c rest => cases hb; exact ⟨rest, rfl⟩
    have hsplit : pre ++ a :: b :: post = (pre ++ [a]) ++ b :: post := by simp
    grind [Leads.number_lt, leads_next, lastWhile_number, point_self, Leads.position_eq]

/-- A position and its number are in one piece. -/
theorem Laid.piece_numberAt (hl : g.Laid l) (h : lastWhile (fun a => g.position a ≤ x) l = some a) :
    lastWhile (fun c => g.number c ≤ g.number a + (x - g.position a).toNat / g.length a) l =
      some a := by
  obtain ⟨pre, post, rfl, ha, hpost⟩ := lastWhile_split h
  have hx : g.position a ≤ x := by simpa using ha
  obtain ⟨h1, h2⟩ := g.number_of_point (hl.length_pos a (by simp)) hx
  refine hl.lastWhile_number (Nat.le_add_right _ _) fun b hb => ?_
  have hb' : x < g.position b := by simpa using hpost b hb
  exact ((hl.leads_next b hb).lt_iff h1 h2).mpr hb'

theorem Laid.positionOf_lt (hl : g.Laid l) {q : Int} (hmn : m < n) (hp : g.positionOf l m = some p)
    (hq : g.positionOf l n = some q) : p < q := by
  induction n generalizing q with
  | zero => omega
  | succ n ih =>
    -- The first piece has started at `m`, so it has at `n`.
    obtain ⟨a, ha⟩ : ∃ a, lastWhile (fun a => g.number a ≤ n) l = some a := by
      obtain ⟨a, ha, -⟩ := Option.map_eq_some_iff.mp hp
      cases l with
      | nil => cases ha
      | cons c l =>
        have hc : g.number c ≤ m := by simpa using head_of_lastWhile ha
        exact exists_lastWhile (by simp; omega)
    have hlen : 0 < g.length a := by
      obtain ⟨pre, post, rfl, -, -⟩ := lastWhile_split ha
      exact hl.length_pos a (by simp)
    have hpos : g.positionOf l n = some (g.point a n) := by rw [positionOf, ha]; rfl
    rw [hl.positionOf_succ ha] at hq
    grind

theorem Laid.positionOf_le (hl : g.Laid l) {q : Int} (hmn : m ≤ n) (hp : g.positionOf l m = some p)
    (hq : g.positionOf l n = some q) : p ≤ q := by
  rcases hmn.lt_or_eq with hlt | rfl
  · exact (hl.positionOf_lt hlt hp hq).le
  · rw [hp] at hq
    cases hq
    exact le_rfl

theorem Laid.head_le (hl : g.Laid (a :: l)) (hp : g.positionOf (a :: l) n = some p) :
    g.position a ≤ p := by
  obtain ⟨b, hb, rfl⟩ := Option.map_eq_some_iff.mp hp
  have hpoint : g.position b ≤ g.point b n := by grind [point]
  obtain ⟨pre, post, hsplit, -, -⟩ := lastWhile_split hb
  cases pre with
  | nil => cases hsplit; exact hpoint
  | cons c pre =>
    cases hsplit
    exact (hl.before a List.mem_cons_self).2.le.trans hpoint

/-- A position is between the point of its number and the next. -/
theorem Laid.numberAt_eq_some_iff (hl : g.Laid l) :
    g.numberAt l x = some n ↔
      ∃ p q, g.positionOf l n = some p ∧ g.positionOf l (n + 1) = some q ∧ p ≤ x ∧ x < q := by
  have hforth : ∀ m, g.numberAt l x = some m →
      ∃ p q, g.positionOf l m = some p ∧ g.positionOf l (m + 1) = some q ∧ p ≤ x ∧ x < q := by
    intro m hm
    obtain ⟨a, ha, rfl⟩ := Option.map_eq_some_iff.mp hm
    have hpiece := hl.piece_numberAt ha
    obtain ⟨pre, post, rfl, hx, -⟩ := lastWhile_split ha
    have hx : g.position a ≤ x := by simpa using hx
    obtain ⟨h1, h2⟩ := g.number_of_point (hl.length_pos a (by simp)) hx
    refine ⟨_, _, by rw [positionOf, hpiece]; rfl, hl.positionOf_succ hpiece, h1, ?_⟩
    rw [← g.point_succ (Nat.le_add_right _ _)]
    exact h2
  refine ⟨hforth n, ?_⟩
  rintro ⟨p, q, hp, hq, h1, h2⟩
  -- The position has some number, and its points leave no other one than `n`.
  obtain ⟨m, hm⟩ : ∃ m, g.numberAt l x = some m := by
    cases l with
    | nil => cases hp
    | cons c l =>
      have hc : g.position c ≤ x := (hl.head_le hp).trans h1
      obtain ⟨b, hb⟩ : ∃ b, lastWhile (fun a => decide (g.position a ≤ x)) (c :: l) = some b :=
        exists_lastWhile (decide_eq_true hc)
      exact ⟨_, by rw [numberAt, hb]; rfl⟩
  obtain ⟨p', q', hp', hq', h3, h4⟩ := hforth m hm
  have hmn : ¬ n + 1 ≤ m := by
    intro hle
    have := hl.positionOf_le hle hq hp'
    omega
  have hnm : ¬ m + 1 ≤ n := by
    intro hle
    have := hl.positionOf_le hle hq' hp
    omega
  rw [hm, show m = n by omega]

end Grid

end Base
