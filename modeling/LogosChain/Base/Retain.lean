import LogosChain.Base.Map

/-!
# Maps that forget

A map that forgets entries from time to time, beside the map that has kept them all. Entries only
ever cease to be live, so forgetting is not noticed by anyone who asks for live entries.
-/

namespace Base

variable {K V : Type} [DecidableEq K]

/-- The map `kept` has the live entries of `full`, and only such. -/
structure Retains (live : V → Prop) (full kept : Map K V) : Prop where
  sub : ∀ k v, kept.lookup k = some v → full.lookup k = some v
  of_live : ∀ k v, full.lookup k = some v → live v → kept.lookup k = some v

namespace Retains

variable {live live' : V → Prop} {full kept : Map K V} {k : K} {v : V}

theorem refl (live : V → Prop) (m : Map K V) : Retains live m m := ⟨fun _ _ h => h, fun _ _ h _ => h⟩

variable (h : Retains live full kept)
include h

theorem mono (hlive : ∀ v, live' v → live v) : Retains live' full kept :=
  ⟨h.sub, fun k v hv hl => h.of_live k v hv (hlive v hl)⟩

theorem insert (k : K) (v : V) : Retains live (full.insert k v) (kept.insert k v) := by
  constructor
  · grind [Map.lookup_insert_some, sub]
  · grind [Map.lookup_insert_some, of_live]

theorem filter {p : K → V → Bool} (hp : ∀ k v, live v → p k v = true) :
    Retains live full (Map.filter p kept) := by
  constructor
  · intro k v hv
    exact h.sub k v (Map.lookup_filter_some.mp hv).1
  · grind [Map.lookup_filter_some, of_live]

/-- The maps agree where the larger one has no entry or a live one. -/
theorem lookup_eq (hlive : ∀ v, full.lookup k = some v → live v) :
    kept.lookup k = full.lookup k := by
  cases hf : full.lookup k with
  | some v => exact h.of_live k v hf (hlive v hf)
  | none =>
    rw [Option.eq_none_iff_forall_ne_some]
    intro v hk
    rw [h.sub k v hk] at hf
    cases hf

end Retains

end Base
