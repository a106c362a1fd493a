import LogosChain.Mantle.Wire

/-!
# Bounded collections (`binary-codec/src/canonical/{bounded_vec,btree,bounded_ordered_map}.rs`)

A collection is a count and its items. What is read is what is written, with one exception that the
code makes on purpose: a vector whose items take no bytes is refused where its maximum is large. The
work of reading a collection is bounded by its bytes and not by its count.
-/

namespace Logos.Mantle.Wire

open Base Codec

variable {α β κ : Type} {c : Codec DecodeError α} {k : Codec DecodeError κ}
  {d : Codec DecodeError β} {valid : α → Prop} {validK : κ → Prop} {validD : β → Prop}
  {typeName itemName : String} {min max : Nat}

/-- Reads an element of a set (`decode_set`). -/
def treeSetItem [LinearOrder α] (typeName : String) (c : Codec DecodeError α) (items : List α)
    (b : Bytes) : Except DecodeError (Bytes × α) := do
  let (next, element) ← c.decode b
  checkKeyOrder typeName items.getLast? element items.length
  return (next, element)

/-- `BoundedBTreeSet<T, MIN, MAX>`. -/
def bTreeSet [LinearOrder α] (typeName : String) (min max : Nat) (c : Codec DecodeError α) :
    Codec DecodeError (List α) :=
  .counted (lengthPrefix max) min max (.lengthOutOfBounds typeName · min max) c.encode
    c.encodedLength (treeSetItem typeName c)

/-- Reads an entry: a repeated key is refused before its value is read. -/
def orderedMapEntry [DecidableEq κ] (typeName : String) (k : Codec DecodeError κ)
    (c : Codec DecodeError β) (items : List (κ × β)) (b : Bytes) :
    Except DecodeError (Bytes × (κ × β)) := do
  let (b, key) ← k.decode b
  failIf (key ∈ items.map (·.1)) (.duplicateItem typeName items.length)
  let (b, value) ← c.decode b
  return (b, (key, value))

/-- `BoundedOrderedMap<K, V, MIN, MAX>`. -/
def orderedMap [DecidableEq κ] (typeName : String) (min max : Nat) (k : Codec DecodeError κ)
    (c : Codec DecodeError β) : Codec DecodeError (List (κ × β)) :=
  .counted (lengthPrefix max) min max (.lengthOutOfBounds typeName · min max) (k.pair c).encode
    (k.pair c).encodedLength (orderedMapEntry typeName k c)

/-! ## One encoding for each collection -/

theorem treeSetItem_canonical [LinearOrder α] (hc : c.Canonical valid) :
    Codec.CanonicalStep (treeSetItem typeName c) c.encode fun items x =>
      valid x ∧ ∀ last ∈ items.getLast?, last < x where
  sound h := by
    obtain ⟨⟨next, item⟩, h1, h⟩ := bind_ok h
    obtain ⟨_, h2, h⟩ := bind_ok h
    cases h
    exact ⟨⟨(hc.sound h1).1, checkKeyOrder_ok.mp h2⟩, (hc.sound h1).2⟩
  complete rest hx :=
    ok_bind (hc.complete rest hx.1) (ok_bind (a := ()) (checkKeyOrder_ok.mpr hx.2) rfl)

theorem bTreeSet_canonical [LinearOrder α] (hc : c.Canonical valid) (hmax : max < 2 ^ 32) :
    (bTreeSet typeName min max c).Canonical fun xs =>
      (min ≤ xs.length ∧ xs.length ≤ max) ∧ (∀ x ∈ xs, valid x) ∧ xs.Pairwise (· < ·) := by
  refine prefixed_canonical hmax (treeSetItem_canonical hc) (fun _ _ hx => hc.length hx.1)
    fun xs => ?_
  have hextends := @extends_of_ascending α [] xs valid α _ id List.Pairwise.nil
  simpa using hextends

theorem orderedMapEntry_canonical [DecidableEq κ] (hk : k.Canonical validK)
    (hd : d.Canonical validD) :
    Codec.CanonicalStep (orderedMapEntry typeName k d) (k.pair d).encode fun items x =>
      (validK x.1 ∧ validD x.2) ∧ x.1 ∉ items.map (·.1) where
  sound h := by
    obtain ⟨⟨b1, key⟩, h1, h⟩ := bind_ok h
    obtain ⟨_, h2, h⟩ := bind_ok h
    obtain ⟨⟨b2, value⟩, h3, h⟩ := bind_ok h
    cases h
    obtain ⟨hkey, rfl⟩ := hk.sound h1
    obtain ⟨hvalue, rfl⟩ := hd.sound h3
    exact ⟨⟨⟨hkey, hvalue⟩, failIf_ok.mp h2⟩, List.append_assoc _ _ _⟩
  complete {items x} rest hx := by
    have h1 := hk.complete (d.encode x.2 ++ rest) hx.1.1
    rw [← List.append_assoc] at h1
    exact ok_bind h1 (ok_bind (a := ()) (failIf_ok.mpr hx.2) (ok_bind (hd.complete rest hx.1.2) rfl))

theorem orderedMap_canonical [DecidableEq κ] (hk : k.Canonical validK) (hd : d.Canonical validD)
    (hmax : max < 2 ^ 32) :
    (orderedMap typeName min max k d).Canonical fun xs =>
      (min ≤ xs.length ∧ xs.length ≤ max) ∧ (∀ x ∈ xs, validK x.1 ∧ validD x.2) ∧
        (xs.map (·.1)).Nodup :=
  prefixed_canonical hmax (orderedMapEntry_canonical hk hd)
    (fun _ _ hx => (hk.pair hd).length hx.1) fun _ => extends_of_nodup List.nodup_nil

/-- An empty item is refused where the maximum is large. -/
theorem vecItem_of_empty (hc : c.Canonical valid) {x : α} (hx : valid x) (hempty : c.encode x = [])
    (hmax : zeroLengthElementMax < max) (items : List α) (b : Bytes) (r : Bytes × α) :
    vecItem itemName max c items b ≠ .ok r := by
  intro h
  obtain ⟨⟨next, item⟩, h1, h⟩ := bind_ok h
  obtain ⟨_, h2, -⟩ := bind_ok h
  rw [(hc.only_of_empty hx hempty).1 b] at h1
  cases h1
  exact failIf_ok.mp h2 ⟨rfl, hmax⟩

/-- A vector has one encoding exactly if its items take bytes or there are few of them. -/
theorem boundedVec_canonical_iff (hc : c.Canonical valid) (hmin : min ≤ max) (hmax : max < 2 ^ 32) :
    (boundedVec typeName itemName min max c).Canonical
        (fun xs => (min ≤ xs.length ∧ xs.length ≤ max) ∧ ∀ x ∈ xs, valid x) ↔
      (∀ x, valid x → c.encode x ≠ []) ∨ max ≤ zeroLengthElementMax := by
  refine ⟨fun h => ?_, boundedVec_canonical hc hmax⟩
  by_contra hnot
  push Not at hnot
  obtain ⟨⟨x, hx, hempty⟩, hlarge⟩ := hnot
  -- a vector of such items is not read back
  obtain ⟨n, hn⟩ : ∃ n, Nat.max 1 min = n + 1 := ⟨Nat.max 1 min - 1, by grind⟩
  have hv : (min ≤ (List.replicate (n + 1) x).length ∧ (List.replicate (n + 1) x).length ≤ max) ∧
      ∀ y ∈ List.replicate (n + 1) x, valid y := by
    refine ⟨by grind, fun y hy => ?_⟩
    rw [List.eq_of_mem_replicate hy]
    exact hx
  obtain ⟨⟨b, m⟩, h1, h2⟩ := bind_ok (h.complete [] hv)
  obtain ⟨_, -, h3⟩ := bind_ok h2
  cases m with
  | zero => cases h3
  | succ m =>
    obtain ⟨r, h4, -⟩ := bind_ok h3
    exact vecItem_of_empty hc hx hempty hlarge _ _ r h4

/-! ## Work -/

theorem lengthPrefix_lt (b rest : Bytes) (n : Nat) (h : (lengthPrefix max).decode b = .ok (rest, n)) :
    rest.length < b.length := by
  have hread : ∀ (short : Nat → DecodeError) (width : Nat), 0 < width →
      (number short width).decode b = .ok (rest, n) → rest.length < b.length := by
    intro short width hwidth h
    refine (Codec.Canonical.number short width).length_lt (fun v _ hnil => ?_) h
    have := congrArg List.length hnil
    rw [number, length_leBytes] at this
    exact absurd this (by simp; omega)
  unfold lengthPrefix at h
  split at h
  · exact hread _ 1 (by decide) h
  · split at h
    · exact hread _ 2 (by decide) h
    · exact hread _ 4 (by decide) h

theorem vec_work (hc : c.Canonical valid) (b : Bytes) :
    Codec.WithinBytes (work (lengthPrefix max) min max (vecItem itemName max c) b) b ∨
    (∀ x, valid x → c.encode x = []) ∧
      (work (lengthPrefix max) min max (vecItem itemName max c) b).1 ≤ zeroLengthElementMax := by
  have hread : ∀ items b rest x, vecItem itemName max c items b = .ok (rest, x) →
      c.decode b = .ok (rest, x) := by
    intro items b rest x h
    obtain ⟨⟨next, item⟩, h1, h⟩ := bind_ok h
    obtain ⟨_, -, h⟩ := bind_ok h
    cases h
    exact h1
  by_cases hbytes : ∀ x, valid x → c.encode x ≠ []
  · exact .inl (work_le lengthPrefix_lt
      (.inl fun items b rest x h => hc.length_lt hbytes (hread _ _ _ _ h)) b)
  · push Not at hbytes
    obtain ⟨x, hx, hempty⟩ := hbytes
    by_cases hmax : zeroLengthElementMax < max
    · refine .inl (work_le lengthPrefix_lt (.inr ⟨fun b rest y h => ?_, ?_⟩) b)
      · exact absurd h (vecItem_of_empty hc hx hempty hmax _ _ _)
      · exact fun items b rest x h => hc.length_le (hread _ _ _ _ h)
    · refine .inr ⟨fun y hy => ?_, (work_le_of_max b).trans (not_lt.mp hmax)⟩
      rw [(hc.only_of_empty hx hempty).2 y hy]
      exact hempty

/-- A key without bytes is not read twice, as it is held against the key before it. -/
theorem keyed_work {γ : Type} {step : List γ → Bytes → Except DecodeError (Bytes × γ)} {f : γ → κ}
    (hk : k.Canonical validK)
    (hread : ∀ items b rest x, step items b = .ok (rest, x) → (∃ b', k.decode b = .ok (b', f x) ∧
      rest.length ≤ b'.length) ∧ ∀ last ∈ items.getLast?, f last ≠ f x) (b : Bytes) :
    Codec.WithinBytes (work (lengthPrefix max) min max step b) b := by
  refine work_le lengthPrefix_lt ?_ b
  by_cases hbytes : ∀ x, validK x → k.encode x ≠ []
  · refine .inl fun items b rest x h => ?_
    obtain ⟨⟨b', h1, hle⟩, -⟩ := hread _ _ _ _ h
    exact hle.trans_lt (hk.length_lt hbytes h1)
  · push Not at hbytes
    obtain ⟨key, hkey, hempty⟩ := hbytes
    have honly : ∀ items b rest x, step items b = .ok (rest, x) → f x = key := by
      intro items b rest x h
      obtain ⟨⟨b', h1, -⟩, -⟩ := hread _ _ _ _ h
      rw [(hk.only_of_empty hkey hempty).1 b] at h1
      cases h1
      rfl
    refine .inr ⟨fun b rest x h b' r hr => ?_, fun items b rest x h => ?_⟩
    · refine (hread _ _ _ _ hr).2 x rfl ?_
      rw [honly _ _ _ _ h, honly _ _ _ _ hr]
    · obtain ⟨⟨b', h1, hle⟩, -⟩ := hread _ _ _ _ h
      exact hle.trans (hk.length_le h1)

theorem treeSet_work [LinearOrder α] (hc : c.Canonical valid) (b : Bytes) :
    Codec.WithinBytes (work (lengthPrefix max) min max (treeSetItem typeName c) b) b := by
  refine keyed_work (f := id) hc (fun items b rest x h => ?_) b
  obtain ⟨⟨next, item⟩, h1, h⟩ := bind_ok h
  obtain ⟨_, h2, h⟩ := bind_ok h
  cases h
  exact ⟨⟨rest, h1, le_rfl⟩, fun last hlast => (checkKeyOrder_ok.mp h2 last hlast).ne⟩

theorem treeMap_work [LinearOrder κ] (hk : k.Canonical validK) (hd : d.Canonical validD) (b : Bytes) :
    Codec.WithinBytes (work (lengthPrefix max) min max (mapEntry typeName k d) b) b := by
  refine keyed_work (f := Prod.fst) hk (fun items b rest x h => ?_) b
  obtain ⟨⟨b1, key⟩, h1, h⟩ := bind_ok h
  obtain ⟨_, h2, h⟩ := bind_ok h
  obtain ⟨⟨b2, value⟩, h3, h⟩ := bind_ok h
  cases h
  exact ⟨⟨b1, h1, hd.length_le h3⟩, fun last hlast =>
    (checkKeyOrder_ok.mp h2 last.1 (Option.mem_map_of_mem _ hlast)).ne⟩

theorem orderedMap_work [DecidableEq κ] (hk : k.Canonical validK) (hd : d.Canonical validD)
    (b : Bytes) :
    Codec.WithinBytes (work (lengthPrefix max) min max (orderedMapEntry typeName k d) b) b := by
  refine keyed_work (f := Prod.fst) hk (fun items b rest x h => ?_) b
  obtain ⟨⟨b1, key⟩, h1, h⟩ := bind_ok h
  obtain ⟨_, h2, h⟩ := bind_ok h
  obtain ⟨⟨b2, value⟩, h3, h⟩ := bind_ok h
  cases h
  refine ⟨⟨b1, h1, hd.length_le h3⟩, fun last hlast heq => failIf_ok.mp h2 ?_⟩
  exact List.mem_map.mpr ⟨last, List.mem_of_getLast? hlast, heq⟩

/-- Collections of canonical items are canonical; a vector exactly if its items take bytes or there
are few of them. Reading begins at most one item more than the bytes it takes, or 1024 empty items.
-/
theorem collections_canonical (c : Codec DecodeError α) (d : Codec DecodeError β)
    (hc : c.Canonical valid) (hd : d.Canonical validD) (typeName itemName : String)
    (hmin : min ≤ max) (hmax : max < 2 ^ 32) :
    ((boundedVec typeName itemName min max c).Canonical
        (fun xs => (min ≤ xs.length ∧ xs.length ≤ max) ∧ ∀ x ∈ xs, valid x) ↔
      (∀ x, valid x → c.encode x ≠ []) ∨ max ≤ zeroLengthElementMax) ∧
    (∀ [LinearOrder α], (bTreeSet typeName min max c).Canonical
      fun xs => (min ≤ xs.length ∧ xs.length ≤ max) ∧ (∀ x ∈ xs, valid x) ∧ xs.Pairwise (· < ·)) ∧
    (∀ [LinearOrder α], (bTreeMap typeName min max c d).Canonical
      fun xs => (min ≤ xs.length ∧ xs.length ≤ max) ∧ (∀ x ∈ xs, valid x.1 ∧ validD x.2) ∧
        (xs.map (·.1)).Pairwise (· < ·)) ∧
    (∀ [DecidableEq α], (orderedMap typeName min max c d).Canonical
      fun xs => (min ≤ xs.length ∧ xs.length ≤ max) ∧ (∀ x ∈ xs, valid x.1 ∧ validD x.2) ∧
        (xs.map (·.1)).Nodup) ∧
    ∀ b : Bytes,
      (∀ {γ : Type} (step : List γ → Bytes → Except DecodeError (Bytes × γ)) encode length rest xs,
        (counted (lengthPrefix max) min max (.lengthOutOfBounds typeName · min max) encode
          length step).decode b = .ok (rest, xs) →
        work (lengthPrefix max) min max step b = (xs.length, rest)) ∧
      (Codec.WithinBytes (work (lengthPrefix max) min max (vecItem itemName max c) b) b ∨
        (∀ x, valid x → c.encode x = []) ∧
          (work (lengthPrefix max) min max (vecItem itemName max c) b).1 ≤ 1024) ∧
      (∀ [LinearOrder α],
        Codec.WithinBytes (work (lengthPrefix max) min max (treeSetItem typeName c) b) b ∧
        Codec.WithinBytes (work (lengthPrefix max) min max (mapEntry typeName c d) b) b) ∧
      ∀ [DecidableEq α],
        Codec.WithinBytes (work (lengthPrefix max) min max (orderedMapEntry typeName c d) b) b :=
  ⟨boundedVec_canonical_iff hc hmin hmax, bTreeSet_canonical hc hmax, bTreeMap_canonical hc hd hmax,
    orderedMap_canonical hc hd hmax, fun b => ⟨fun _ _ _ _ _ h => work_of_decode h,
      vec_work hc b, ⟨treeSet_work hc b, treeMap_work hc hd b⟩, orderedMap_work hc hd b⟩⟩

theorem collections_canonical_bytes :
    (boundedVec "Items" "u8" 0 3 u8).decode [2, 7, 7] = .ok ([], [7, 7]) ∧
    (bTreeSet "Items" 0 3 u8).decode [2, 1, 7] = .ok ([], [1, 7]) ∧
    (bTreeMap "Items" 0 3 u8 u8).decode [2, 1, 9, 7, 9] = .ok ([], [(1, 9), (7, 9)]) ∧
    (orderedMap "Items" 0 3 u8 u8).decode [2, 7, 9, 1, 9] = .ok ([], [(7, 9), (1, 9)]) ∧
    work (lengthPrefix 3) 0 3 (treeSetItem "Items" u8) [2, 1, 7] = (2, []) := by
  obtain ⟨hvec, hset, hmap, hordered, hwork⟩ := collections_canonical u8 u8 u8_canonical
    u8_canonical "Items" "u8" (Nat.zero_le 3) (by decide)
  have hset' := hset.complete (v := [1, 7]) [] (by decide)
  exact ⟨(hvec.mpr (.inr (by decide))).complete (v := [7, 7]) [] (by decide), hset',
    hmap.complete (v := [(1, 9), (7, 9)]) [] (by decide),
    hordered.complete (v := [(7, 9), (1, 9)]) [] (by decide), (hwork _).1 _ _ _ _ _ hset'⟩

/-- One item without bytes is written and not read back, where a vector may hold 1025. -/
theorem empty_items_refused :
    (unit : Codec DecodeError Unit).Canonical (fun _ => True) ∧
    (boundedVec "BoundedVec" "Unit" 0 1025 (unit : Codec DecodeError Unit)).decode
      ((boundedVec "BoundedVec" "Unit" 0 1025 (unit : Codec DecodeError Unit)).encode [()]) =
      .error (.zeroLengthElement "Unit" 1025 1024) := by
  refine ⟨⟨fun h => ?_, fun _ _ => rfl, fun _ => rfl⟩, by rfl⟩
  cases h
  exact ⟨trivial, rfl⟩

end Logos.Mantle.Wire
