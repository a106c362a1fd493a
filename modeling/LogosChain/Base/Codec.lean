import LogosChain.Base.Bytes
import LogosChain.Base.Except
import Mathlib.Data.List.Nodup
import Mathlib.Order.Defs.LinearOrder

/-!
# Codecs

A codec writes a value as bytes, says how many there are, and reads a value from the front of a
string. It is canonical when each value has one encoding: what is read was written so, and what is
written is read back, whatever follows. Every combinator keeps codecs canonical.
-/

namespace Base

variable {ε α β γ : Type}

/-! ## Numbers -/

/-- The number of some bytes, the lowest first. -/
def leNat : Bytes → Nat
  | [] => 0
  | b :: bs => b.toNat + 256 * leNat bs

theorem leNat_lt (bs : Bytes) : leNat bs < 256 ^ bs.length := by
  induction bs with
  | nil => simp [leNat]
  | cons b bs ih =>
    grind [leNat, UInt8.toNat_lt]

theorem leBytes_leNat (bs : Bytes) : leBytes bs.length (leNat bs) = bs := by
  induction bs with
  | nil => rfl
  | cons b bs ih =>
    grind [leNat, UInt8.toNat_ofNat', leBytes, UInt8.toNat_lt, UInt8.toNat_inj]

theorem leNat_leBytes {width n : Nat} (hn : n < 256 ^ width) : leNat (leBytes width n) = n := by
  induction width generalizing n with
  | zero =>
    rw [leBytes, leNat]
    omega
  | succ width ih =>
    grind [leBytes, leNat, UInt8.toNat_ofNat']

/-! ## Codecs -/

/-- How values are written and read. -/
structure Codec (ε α : Type) where
  encode : α → Bytes
  encodedLength : α → Nat
  decode : Bytes → Except ε (Bytes × α)

namespace Codec

/-- Each valid value has one encoding, and only these are read. -/
structure Canonical (c : Codec ε α) (valid : α → Prop) : Prop where
  sound : ∀ {b rest : Bytes} {v : α}, c.decode b = .ok (rest, v) → valid v ∧ c.encode v ++ rest = b
  complete : ∀ {v : α} (rest : Bytes), valid v → c.decode (c.encode v ++ rest) = .ok (rest, v)
  length : ∀ {v : α}, valid v → c.encodedLength v = (c.encode v).length

variable {c : Codec ε α} {valid : α → Prop} {b rest : Bytes} {v : α}

theorem Canonical.congr {valid' : α → Prop} (h : c.Canonical valid)
    (hiff : ∀ v, valid v ↔ valid' v) : c.Canonical valid' where
  sound hb := ⟨(hiff _).mp (h.sound hb).1, (h.sound hb).2⟩
  complete rest hv := h.complete rest ((hiff _).mpr hv)
  length hv := h.length ((hiff _).mpr hv)

theorem Canonical.length_le (hc : c.Canonical valid)
    (h : c.decode b = .ok (rest, v)) : rest.length ≤ b.length := by
  rw [← (hc.sound h).2, List.length_append]
  exact Nat.le_add_left _ _

theorem Canonical.length_lt (hc : c.Canonical valid) (hbytes : ∀ v, valid v → c.encode v ≠ [])
    (h : c.decode b = .ok (rest, v)) : rest.length < b.length := by
  obtain ⟨hv, rfl⟩ := hc.sound h
  have := List.length_pos_iff.mpr (hbytes v hv)
  rw [List.length_append]
  omega

/-- A value that takes no bytes is read from every string, so it is the only one. -/
theorem Canonical.only_of_empty (hc : c.Canonical valid) (hv : valid v)
    (hempty : c.encode v = []) : (∀ b, c.decode b = .ok (b, v)) ∧ ∀ w, valid w → w = v := by
  have hread : ∀ b, c.decode b = .ok (b, v) := fun b => by
    have h := hc.complete b hv
    rwa [hempty, List.nil_append] at h
  refine ⟨hread, fun w hw => ?_⟩
  have h := hc.complete [] hw
  grind

/-- Splits bytes off the front; `short` is the error when some are missing. -/
def take (short : Nat → ε) (n : Nat) (b : Bytes) : Except ε (Bytes × Bytes) :=
  if n ≤ b.length then .ok (b.take n, b.drop n) else .error (short (n - b.length))

/-- A number of a fixed number of bytes, the lowest first. -/
def number (short : Nat → ε) (width : Nat) : Codec ε Nat where
  encode := leBytes width
  encodedLength _ := width
  decode b := do
    let (head, rest) ← take short width b
    return (rest, leNat head)

theorem Canonical.number (short : Nat → ε) (width : Nat) :
    (number short width).Canonical (· < 256 ^ width) where
  sound {b rest v} h := by
    obtain ⟨⟨head, rest'⟩, h1, h2⟩ := bind_ok h
    cases h2
    unfold take at h1
    split at h1
    · rename_i hle
      cases h1
      have hlen : (b.take width).length = width := List.length_take_of_le hle
      have hlt := leNat_lt (b.take width)
      have hbytes := leBytes_leNat (b.take width)
      rw [hlen] at hlt hbytes
      refine ⟨hlt, ?_⟩
      calc leBytes width (leNat (b.take width)) ++ b.drop width
          = b.take width ++ b.drop width := by rw [hbytes]
        _ = b := List.take_append_drop width b
    · cases h1
  complete {v} rest hv := by
    have htake : take short width (leBytes width v ++ rest) = .ok (leBytes width v, rest) := by
      grind [take, length_leBytes]
    exact ok_bind htake (congrArg (fun n => Except.ok (rest, n)) (leNat_leBytes hv))
  length _ := (length_leBytes _ _).symm

/-- No bytes. -/
def unit : Codec ε Unit where
  encode _ := []
  encodedLength _ := 0
  decode b := .ok (b, ())

/-- One value after the other. -/
def pair (c : Codec ε α) (d : Codec ε β) : Codec ε (α × β) where
  encode v := c.encode v.1 ++ d.encode v.2
  encodedLength v := c.encodedLength v.1 + d.encodedLength v.2
  decode b := do
    let (b, x) ← c.decode b
    let (b, y) ← d.decode b
    return (b, (x, y))

theorem Canonical.pair {d : Codec ε β} {validC : α → Prop} {validD : β → Prop}
    (hc : c.Canonical validC) (hd : d.Canonical validD) :
    (c.pair d).Canonical fun v => validC v.1 ∧ validD v.2 where
  sound h := by
    obtain ⟨⟨b1, x⟩, h1, h⟩ := bind_ok h
    obtain ⟨⟨b2, y⟩, h2, h⟩ := bind_ok h
    cases h
    obtain ⟨hx, rfl⟩ := hc.sound h1
    obtain ⟨hy, rfl⟩ := hd.sound h2
    exact ⟨⟨hx, hy⟩, List.append_assoc _ _ _⟩
  complete {v} rest hv := by
    have h1 := hc.complete (d.encode v.2 ++ rest) hv.1
    rw [← List.append_assoc] at h1
    exact ok_bind h1 (ok_bind (hd.complete rest hv.2) rfl)
  length {v} hv := by grind [Codec.pair, length]

/-- A value that is read as another one and converted, if it can be. -/
def tryMap (c : Codec ε α) (f : α → Except ε β) (g : β → α) : Codec ε β where
  encode v := c.encode (g v)
  encodedLength v := c.encodedLength (g v)
  decode b := do
    let (b, x) ← c.decode b
    let y ← f x
    return (b, y)

variable {f : α → β} {g : β → α} {valid' : β → Prop}

theorem Canonical.tryMap {f : α → Except ε β} (hc : c.Canonical valid)
    (hf : ∀ x y, valid x → f x = .ok y → g y = x ∧ valid' y)
    (hg : ∀ y, valid' y → valid (g y) ∧ f (g y) = .ok y) : (c.tryMap f g).Canonical valid' where
  sound h := by
    obtain ⟨⟨b, x⟩, h1, h⟩ := bind_ok h
    obtain ⟨y, h2, h⟩ := bind_ok h
    cases h
    obtain ⟨hx, rfl⟩ := hc.sound h1
    obtain ⟨hback, hy⟩ := hf x _ hx h2
    exact ⟨hy, by rw [← hback]; rfl⟩
  complete {v} rest hv := ok_bind (hc.complete rest (hg v hv).1) (ok_bind (hg v hv).2 rfl)
  length {v} hv := hc.length (hg v hv).1

/-- Another type for the same values. -/
def imap (c : Codec ε α) (f : α → β) (g : β → α) : Codec ε β := c.tryMap (fun x => .ok (f x)) g

theorem Canonical.imap (hc : c.Canonical valid) (hf : ∀ x, valid x → g (f x) = x ∧ valid' (f x))
    (hg : ∀ y, valid' y → valid (g y) ∧ f (g y) = y) : (c.imap f g).Canonical valid' := by
  refine hc.tryMap (fun x y hx h => ?_) fun y hy => ⟨(hg y hy).1, congrArg _ (hg y hy).2⟩
  cases h
  exact hf x hx

/-- A value that is refused unless it passes a check. -/
def guard (c : Codec ε α) (p : α → Prop) [DecidablePred p] (e : ε) : Codec ε α :=
  c.tryMap (fun x => if p x then .ok x else .error e) id

theorem Canonical.guard (hc : c.Canonical valid) (p : α → Prop) [DecidablePred p]
    (e : ε) : (c.guard p e).Canonical fun x => valid x ∧ p x := by
  refine hc.tryMap (fun x y hx h => ?_) fun y hy => ⟨hy.1, if_pos hy.2⟩
  grind

/-- A value that is read as another one, which it carries. -/
def attach (c : Codec ε α) (p : α → Prop) [DecidablePred p] (e : ε) : Codec ε {x // p x} :=
  c.tryMap (fun x => if h : p x then .ok ⟨x, h⟩ else .error e) Subtype.val

theorem Canonical.attach (hc : c.Canonical valid) (p : α → Prop) [DecidablePred p]
    (e : ε) : (c.attach p e).Canonical fun x => valid x.1 := by
  refine hc.tryMap (fun x y hx h => ?_) fun y hy => ⟨hy, dif_pos y.2⟩
  split at h
  · cases h
    exact ⟨rfl, hx⟩
  · cases h

/-- Reads with a codec and wraps what is read. -/
def decodeAs (c : Codec ε α) (f : α → β) (b : Bytes) : Except ε (Bytes × β) := do
  let (b, x) ← c.decode b
  return (b, f x)

theorem Canonical.decodeAs_iff (hc : c.Canonical valid) {y : β} :
    c.decodeAs f b = .ok (rest, y) ↔ ∃ x, f x = y ∧ valid x ∧ c.encode x ++ rest = b := by
  constructor
  · intro h
    obtain ⟨⟨b', x⟩, h1, h⟩ := bind_ok h
    cases h
    exact ⟨x, rfl, hc.sound h1⟩
  · rintro ⟨x, rfl, hx, rfl⟩
    exact ok_bind (hc.complete rest hx) rfl

/-! ## Lists -/

/-- Reads items; how one is read may depend on the items before it. -/
def decodeMany (step : List α → Bytes → Except ε (Bytes × α)) :
    Nat → List α → Bytes → Except ε (Bytes × List α)
  | 0, items, b => .ok (b, items)
  | n + 1, items, b => do
    let (rest, item) ← step items b
    decodeMany step n (items ++ [item]) rest

/-- Each item may come after the items before it. -/
def Extends (next : List α → α → Prop) : List α → List α → Prop
  | _, [] => True
  | items, x :: xs => next items x ∧ Extends next (items ++ [x]) xs

/-- What is read next is an encoding of an item that may come next. -/
structure CanonicalStep (step : List α → Bytes → Except ε (Bytes × α)) (encode : α → Bytes)
    (next : List α → α → Prop) : Prop where
  sound : ∀ {items : List α} {b rest : Bytes} {x : α}, step items b = .ok (rest, x) →
    next items x ∧ encode x ++ rest = b
  complete : ∀ {items : List α} {x : α} (rest : Bytes), next items x →
    step items (encode x ++ rest) = .ok (rest, x)

variable {step : List α → Bytes → Except ε (Bytes × α)} {encodeItem : α → Bytes}
  {next : List α → α → Prop} {items xs : List α}

theorem decodeMany_sound (h : CanonicalStep step encodeItem next) {n : Nat} {all : List α}
    (hb : decodeMany step n items b = .ok (rest, all)) :
    ∃ xs, all = items ++ xs ∧ xs.length = n ∧ Extends next items xs ∧
      xs.flatMap encodeItem ++ rest = b := by
  induction n generalizing items b with
  | zero =>
    cases hb
    exact ⟨[], by simp, rfl, trivial, rfl⟩
  | succ n ih =>
    obtain ⟨⟨b', x⟩, h1, h2⟩ := bind_ok hb
    obtain ⟨hnext, rfl⟩ := h.sound h1
    obtain ⟨xs, rfl, rfl, hext, rfl⟩ := ih h2
    refine ⟨x :: xs, by simp, rfl, ⟨hnext, hext⟩, ?_⟩
    rw [List.flatMap_cons, List.append_assoc]

theorem decodeMany_complete (h : CanonicalStep step encodeItem next) (hxs : Extends next items xs)
    (rest : Bytes) :
    decodeMany step xs.length items (xs.flatMap encodeItem ++ rest) = .ok (rest, items ++ xs) := by
  induction xs generalizing items with
  | nil => simp [decodeMany]
  | cons x xs ih =>
    obtain ⟨hnext, hext⟩ := hxs
    have hlist := ih hext
    rw [List.append_assoc, List.singleton_append] at hlist
    rw [List.flatMap_cons, List.append_assoc]
    exact ok_bind (h.complete _ hnext) hlist

/-- A count, held to bounds, and as many items. -/
def counted (count : Codec ε Nat) (lo hi : Nat) (outOfBounds : Nat → ε) (encodeItem : α → Bytes)
    (itemLength : α → Nat) (step : List α → Bytes → Except ε (Bytes × α)) : Codec ε (List α) where
  encode xs := count.encode xs.length ++ xs.flatMap encodeItem
  encodedLength xs := count.encodedLength xs.length + (xs.map itemLength).sum
  decode b := do
    let (b, n) ← count.decode b
    failIf (n < lo ∨ hi < n) (outOfBounds n)
    decodeMany step n [] b

variable {count : Codec ε Nat} {lo hi : Nat} {outOfBounds : Nat → ε} {itemLength : α → Nat}

theorem Canonical.counted {bound : Nat} (hcount : count.Canonical (· < bound)) (hhi : hi < bound)
    (h : CanonicalStep step encodeItem next)
    (hlength : ∀ items x, next items x → itemLength x = (encodeItem x).length) :
    (counted count lo hi outOfBounds encodeItem itemLength step).Canonical fun xs =>
      (lo ≤ xs.length ∧ xs.length ≤ hi) ∧ Extends next [] xs where
  sound {b rest v} hb := by
    obtain ⟨⟨b', n⟩, h1, h2⟩ := bind_ok hb
    obtain ⟨_, hbounds, h3⟩ := bind_ok h2
    obtain ⟨xs, rfl, rfl, hext, rfl⟩ := decodeMany_sound h h3
    obtain ⟨-, rfl⟩ := hcount.sound h1
    rw [failIf_ok] at hbounds
    refine ⟨⟨?_, hext⟩, List.append_assoc _ _ _⟩
    omega
  complete {v} rest hv := by
    obtain ⟨hbounds, hext⟩ := hv
    have hn : v.length < bound := by omega
    have h1 := hcount.complete (v.flatMap encodeItem ++ rest) hn
    rw [← List.append_assoc] at h1
    refine ok_bind h1 (ok_bind (a := ()) (failIf_ok.mpr (by omega)) ?_)
    exact decodeMany_complete h hext rest
  length {v} hv := by
    have hsum (items xs : List α) (hxs : Extends next items xs) :
        (xs.map itemLength).sum = (xs.flatMap encodeItem).length := by
      induction xs generalizing items with
      | nil => rfl
      | cons x xs ih =>
        rw [List.map_cons, List.sum_cons, List.flatMap_cons, List.length_append,
          hlength items x hxs.1, ih _ hxs.2]
    grind [Codec.counted, length]

/-! ### The work of reading a list -/

/-- How many items `decodeMany` begins to read, and what it leaves. -/
def itemsBegun (step : List α → Bytes → Except ε (Bytes × α)) : Nat → List α → Bytes → Nat × Bytes
  | 0, _, b => (0, b)
  | n + 1, items, b =>
    match step items b with
    | .error _ => (1, b)
    | .ok (rest, item) =>
      ((itemsBegun step n (items ++ [item]) rest).1 + 1, (itemsBegun step n (items ++ [item]) rest).2)

/-- The same for a list with its count. -/
def work (count : Codec ε Nat) (lo hi : Nat) (step : List α → Bytes → Except ε (Bytes × α))
    (b : Bytes) : Nat × Bytes :=
  match count.decode b with
  | .error _ => (0, b)
  | .ok (rest, n) => if n < lo ∨ hi < n then (0, rest) else itemsBegun step n [] rest

/-- At most one item more is begun than bytes are taken. -/
def WithinBytes (w : Nat × Bytes) (b : Bytes) : Prop := w.1 + w.2.length ≤ b.length + 1

theorem itemsBegun_le (n : Nat) (items : List α) (b : Bytes) : (itemsBegun step n items b).1 ≤ n := by
  induction n generalizing items b with
  | zero => exact Nat.le_refl 0
  | succ n ih =>
    unfold itemsBegun
    split <;> grind

/-- If each item takes a byte, all items but the last one begun have taken one. -/
theorem itemsBegun_of_bytes (h : ∀ items b rest x, step items b = .ok (rest, x) →
      rest.length < b.length) (n : Nat) (items : List α) (b : Bytes) :
    WithinBytes (itemsBegun step n items b) b := by
  unfold WithinBytes
  induction n generalizing items b with
  | zero => exact Nat.le_trans (Nat.le_of_eq (Nat.zero_add _)) (Nat.le_succ _)
  | succ n ih =>
    unfold itemsBegun
    split
    · exact Nat.le_of_eq (Nat.add_comm _ _)
    · rename_i rest x hstep
      have hless := h _ _ _ _ hstep
      have hrest := ih (items ++ [x]) rest
      dsimp only
      omega

/-- If no item is read after the first, at most two are begun. -/
theorem itemsBegun_of_once (h : ∀ b rest x, step [] b = .ok (rest, x) → ∀ b' r, step [x] b' ≠ .ok r)
    (hlen : ∀ items b rest x, step items b = .ok (rest, x) → rest.length ≤ b.length) (n : Nat)
    (b : Bytes) : (itemsBegun step n [] b).1 ≤ 2 ∧ (itemsBegun step n [] b).2.length ≤ b.length := by
  cases n with
  | zero => exact ⟨Nat.zero_le _, Nat.le_refl _⟩
  | succ n =>
    unfold itemsBegun
    split
    · exact ⟨Nat.le_succ _, Nat.le_refl _⟩
    · rename_i rest x hstep
      have hrest := hlen _ _ _ _ hstep
      cases n with
      | zero => exact ⟨Nat.le_succ _, hrest⟩
      | succ n =>
        cases hnext : step [x] rest with
        | error e => simp [itemsBegun, hnext, hrest]
        | ok r => exact absurd hnext (h _ _ _ hstep _ _)

/-- A count takes a byte, and then each item does or the second one is refused. -/
theorem work_le (hcount : ∀ b rest n, count.decode b = .ok (rest, n) → rest.length < b.length)
    (h : (∀ items b rest x, step items b = .ok (rest, x) → rest.length < b.length) ∨
      (∀ b rest x, step [] b = .ok (rest, x) → ∀ b' r, step [x] b' ≠ .ok r) ∧
        ∀ items b rest x, step items b = .ok (rest, x) → rest.length ≤ b.length) (b : Bytes) :
    WithinBytes (work count lo hi step b) b := by
  unfold WithinBytes work
  split
  · simp
  · rename_i rest n hread
    have hless := hcount _ _ _ hread
    split
    · dsimp only
      omega
    · rcases h with h | ⟨hone, hlen⟩
      · exact Nat.le_trans (itemsBegun_of_bytes h n [] rest) (by omega)
      · have := itemsBegun_of_once hone hlen n rest
        omega

theorem work_le_of_max (b : Bytes) : (work count lo hi step b).1 ≤ hi := by
  unfold work
  split
  · exact Nat.zero_le _
  · rename_i rest n hread
    split
    · exact Nat.zero_le _
    · exact Nat.le_trans (itemsBegun_le n [] rest) (by omega)

theorem work_of_decode
    (h : (counted count lo hi outOfBounds encodeItem itemLength step).decode b = .ok (rest, xs)) :
    work count lo hi step b = (xs.length, rest) := by
  have hmany : ∀ n items b, decodeMany step n items b = .ok (rest, xs) →
      xs.length = items.length + n ∧ itemsBegun step n items b = (n, rest) := by
    intro n
    induction n with
    | zero => grind [decodeMany, itemsBegun]
    | succ n ih =>
      intro items b hb
      obtain ⟨⟨b', x⟩, h1, h2⟩ := bind_ok hb
      have := ih _ _ h2
      simp only [itemsBegun, h1]
      grind
  obtain ⟨⟨b', n⟩, h1, h2⟩ := bind_ok h
  obtain ⟨_, hbounds, h3⟩ := bind_ok h2
  have := hmany n [] b' h3
  simp only [work, h1, if_neg (failIf_ok.mp hbounds)]
  grind

/-! ### Items without a condition on the items before them -/

variable {p : α → Prop} {κ : Type}

theorem extends_of_forall : Extends (fun _ x => p x) items xs ↔ ∀ x ∈ xs, p x := by
  induction xs generalizing items with
  | nil => simp [Extends]
  | cons x xs ih => rw [Extends, ih, List.forall_mem_cons]

/-- Items whose keys are not those of items before them. -/
theorem extends_of_nodup {f : α → κ} (hitems : (items.map f).Nodup) :
    Extends (fun items x => p x ∧ f x ∉ items.map f) items xs ↔
      (∀ x ∈ xs, p x) ∧ ((items ++ xs).map f).Nodup := by
  induction xs generalizing items with
  | nil => simp [Extends, hitems]
  | cons x xs ih =>
    have hsplit : (items ++ x :: xs).map f = (items ++ [x] ++ xs).map f := by simp
    rw [Extends, List.forall_mem_cons, hsplit]
    constructor
    · grind
    · grind

/-- Items whose keys come after the key before them. -/
theorem extends_of_ascending [Preorder κ] {f : α → κ} (hitems : (items.map f).Pairwise (· < ·)) :
    Extends (fun items x => p x ∧ ∀ last ∈ items.getLast?, f last < f x) items xs ↔
      (∀ x ∈ xs, p x) ∧ ((items ++ xs).map f).Pairwise (· < ·) := by
  induction xs generalizing items with
  | nil => simp [Extends, hitems]
  | cons x xs ih =>
    have hsplit : ((items ++ x :: xs).map f) = ((items ++ [x] ++ xs).map f) := by simp
    have hgrow : ((items ++ [x]).map f).Pairwise (· < ·) ↔
        ∀ last ∈ items.getLast?, f last < f x := by
      rcases List.eq_nil_or_concat items with rfl | ⟨before, last, rfl⟩
      · simp
      · rw [List.map_append, List.pairwise_append]
        simp only [List.concat_eq_append, List.getLast?_append, List.getLast?_singleton,
          Option.some_or, Option.mem_some_iff, forall_eq'] at hitems ⊢
        constructor
        · intro h
          exact h.2.2 _ (by simp) _ (by simp)
        · intro hlast
          refine ⟨hitems, by simp, fun a ha c hc => ?_⟩
          simp only [List.map_cons, List.map_nil, List.mem_singleton] at hc
          subst hc
          rw [List.map_append, List.pairwise_append] at hitems
          rw [List.map_append, List.mem_append] at ha
          rcases ha with ha | ha
          · exact lt_trans (hitems.2.2 a ha (f last) (by simp)) hlast
          · grind
    rw [Extends, List.forall_mem_cons, hsplit]
    constructor
    · grind
    · grind

end Codec

end Base
