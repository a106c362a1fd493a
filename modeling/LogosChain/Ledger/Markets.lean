import LogosChain.Ledger.Epoch
import Mathlib.Algebra.Order.Floor.Semifield
import Mathlib.Data.Rat.Floor

/-!
# The fee markets (`ledger/src/cryptarchia/mod.rs`)

The price of storage gas follows the gas of an epoch against a moving average, and the base fee of
execution gas the average gas of blocks against a target. Both are computed in words of 128 bits and
rounded up.
-/

namespace Logos.Ledger

open Base Mantle

/-! ## Rounded quotients -/

section Rounding

variable {a a' b : Nat}

theorem divCeil_eq_ceil (hb : 0 < b) : divCeil a b = ⌈(a / b : ℚ)⌉₊ := by
  have hb' : (0 : ℚ) < b := Nat.cast_pos.mpr hb
  have hle : ∀ m, divCeil a b ≤ m ↔ (a / b : ℚ) ≤ m := by
    intro m
    rw [divCeil, div_le_iff₀ hb', ← Nat.cast_mul, Nat.cast_le, Nat.div_le_iff_le_mul_add_pred hb,
      Nat.mul_comm b]
    omega
  exact le_antisymm ((hle _).mpr (Nat.le_ceil _)) (Nat.ceil_le.mpr ((hle _).mp le_rfl))

theorem divCeil_le_divCeil (hb : 0 < b) (h : a ≤ a') : divCeil a b ≤ divCeil a' b := by
  exact Nat.div_le_div_right (by omega)

theorem divCeil_pos (hb : 0 < b) (ha : 0 < a) : 0 < divCeil a b :=
  Nat.div_pos (by omega) hb

end Rounding

namespace ProperFraction

variable (f : ProperFraction) {x y : Nat}

theorem average_bounds :
    min x y ≤ (f.numerator * x + (f.denominator - f.numerator) * y) / f.denominator ∧
      (f.numerator * x + (f.denominator - f.numerator) * y) / f.denominator ≤ max x y := by
  obtain ⟨k, hk⟩ := Nat.exists_eq_add_of_le f.numerator_lt.le
  rw [Nat.le_div_iff_mul_le f.denominator_pos, hk, Nat.add_sub_cancel_left]
  have h1 := Nat.mul_le_mul_left f.numerator (min_le_left x y)
  have h2 := Nat.mul_le_mul_left k (min_le_right x y)
  have h3 := Nat.mul_le_mul_left f.numerator (le_max_left x y)
  have h4 := Nat.mul_le_mul_left k (le_max_right x y)
  refine ⟨by grind, Nat.div_le_of_le_mul ?_⟩
  grind

/-- A mean of two words, times the denominator, is computed in words of 128 bits without overflow. -/
theorem mix_words (hf : f.denominator < 2 ^ 32) (hx : x < 2 ^ 64) (hy : y < 2 ^ 64) :
    ((f.denominator - f.numerator) % 2 ^ 128 * x % 2 ^ 128 + f.numerator * y % 2 ^ 128) % 2 ^ 128 =
      (f.denominator - f.numerator) * x + f.numerator * y := by
  have hn := f.numerator_lt
  have hword : ∀ {a b : Nat}, a < 2 ^ 32 → b < 2 ^ 64 → a * b < 2 ^ 96 := fun ha hb =>
    lt_of_lt_of_eq (Nat.mul_lt_mul'' ha hb) (by decide)
  have h1 := hword (a := f.denominator - f.numerator) (by omega) hx
  have h2 := hword (a := f.numerator) (by omega) hy
  rw [Nat.mod_eq_of_lt (a := f.denominator - _) (by omega), Nat.mod_eq_of_lt (by omega),
    Nat.mod_eq_of_lt (a := f.numerator * y) (by omega), Nat.mod_eq_of_lt (by omega)]

end ProperFraction

/-! ## Storage gas -/

namespace StorageMarketConfig

/-- The parts of a fraction are words of 32 bits. -/
structure Typed (m : StorageMarketConfig) : Prop where
  maxAdjustmentFactor : m.maxAdjustmentFactor.denominator < 2 ^ 32
  emaSmoothingFactor : m.emaSmoothingFactor.denominator < 2 ^ 32

/-- `update_storage_market` in words of 128 bits. -/
def updateInWords (m : StorageMarketConfig) (price consumed ema : Nat) : Nat × Nat :=
  let word := fun n => n % 2 ^ 128
  let β := m.emaSmoothingFactor
  let newEma := word (word (β.numerator * consumed) +
    word (word (β.denominator - β.numerator) * ema)) / β.denominator % 2 ^ 64
  if newEma = 0 then (price, newEma)
  else
    let α := m.maxAdjustmentFactor
    let clampDown := word (α.denominator - α.numerator)
    let clampUp := word (α.denominator + α.numerator)
    let comparator := word (α.denominator * consumed)
    let newPrice :=
      if comparator ≤ word (clampDown * newEma) then
        divCeil (word (price * clampDown)) α.denominator
      else if word (clampUp * newEma) ≤ comparator then
        divCeil (word (price * clampUp)) α.denominator
      else divCeil (word (price * consumed)) newEma
    (newPrice % 2 ^ 64, newEma)

/-- The price follows usage against the average, by at most `α`. -/
def exactStoragePrice (m : StorageMarketConfig) (price consumed ema : Nat) : ℚ :=
  price * max (1 - m.maxAdjustmentFactor.val)
    (min (consumed / ema) (1 + m.maxAdjustmentFactor.val))

variable {m : StorageMarketConfig} {price price' consumed ema t : Nat}

theorem updateInWords_eq (hm : m.Typed) (hprice : price < 2 ^ 64) (hconsumed : consumed < 2 ^ 64)
    (hema : ema < 2 ^ 64) :
    m.updateInWords price consumed ema = updateStorageMarket price consumed ema m := by
  have hα := hm.maxAdjustmentFactor
  have hα' := m.maxAdjustmentFactor.numerator_lt
  have hword : ∀ {x y : Nat}, x < 2 ^ 64 → y < 2 ^ 64 → x * y % 2 ^ 128 = x * y := fun hx hy =>
    Nat.mod_eq_of_lt (lt_of_lt_of_eq (Nat.mul_lt_mul'' hx hy) (by decide))
  have hpart : ∀ {x : Nat}, x < 2 ^ 64 → x % 2 ^ 128 = x := fun h => Nat.mod_eq_of_lt (by omega)
  simp only [updateInWords, updateStorageMarket]
  rw [Nat.add_comm (_ % _), ProperFraction.mix_words _ hm.emaSmoothingFactor hema hconsumed,
    Nat.add_comm (_ * ema)]
  generalize heq : _ / m.emaSmoothingFactor.denominator % 2 ^ 64 = new
  have hnew : new < 2 ^ 64 := heq ▸ Nat.mod_lt _ (by decide)
  rw [hpart (x := m.maxAdjustmentFactor.denominator - _) (by omega),
    hpart (x := m.maxAdjustmentFactor.denominator + _) (by omega), hword (by omega) hconsumed,
    hword (by omega) hnew, hword (by omega) hnew, hword hprice (by omega), hword hprice (by omega),
    hword hprice hconsumed]

/-- The new average of storage gas. -/
def newEma (m : StorageMarketConfig) (consumed ema : Nat) : Nat :=
  (m.emaSmoothingFactor.numerator * consumed +
    (m.emaSmoothingFactor.denominator - m.emaSmoothingFactor.numerator) * ema) /
    m.emaSmoothingFactor.denominator

/-- The price of the three branches, before it is cast to a word. -/
def newPrice (m : StorageMarketConfig) (price consumed ema : Nat) : Nat :=
  let α := m.maxAdjustmentFactor
  if α.denominator * consumed ≤ (α.denominator - α.numerator) * ema then
    divCeil (price * (α.denominator - α.numerator)) α.denominator
  else if (α.denominator + α.numerator) * ema ≤ α.denominator * consumed then
    divCeil (price * (α.denominator + α.numerator)) α.denominator
  else divCeil (price * consumed) ema

theorem newEma_bounds (m : StorageMarketConfig) (consumed ema : Nat) :
    min consumed ema ≤ m.newEma consumed ema ∧ m.newEma consumed ema ≤ max consumed ema :=
  m.emaSmoothingFactor.average_bounds

theorem update_eq (hconsumed : consumed < 2 ^ 64) (hema : ema < 2 ^ 64) :
    updateStorageMarket price consumed ema m =
      if m.newEma consumed ema = 0 then (price, m.newEma consumed ema)
      else (m.newPrice price consumed (m.newEma consumed ema) % 2 ^ 64, m.newEma consumed ema) := by
  have hlt : m.newEma consumed ema < 2 ^ 64 :=
    (m.newEma_bounds consumed ema).2.trans_lt (max_lt hconsumed hema)
  have hcode : updateStorageMarket price consumed ema m = (fun t => if t = 0 then (price, t)
      else (m.newPrice price consumed t % 2 ^ 64, t)) (m.newEma consumed ema % 2 ^ 64) := rfl
  rw [hcode, Nat.mod_eq_of_lt hlt]

/-- The comparisons of products decide the clamp, and each branch rounds its own quotient up. -/
theorem newPrice_eq (ht : 0 < t) :
    m.newPrice price consumed t = ⌈m.exactStoragePrice price consumed t⌉₊ := by
  have hd := m.maxAdjustmentFactor.denominator_pos
  have hd' := m.maxAdjustmentFactor.cast_denominator_pos
  have ht' : (0 : ℚ) < t := Nat.cast_pos.mpr ht
  have hle : ∀ k : Nat, m.maxAdjustmentFactor.denominator * consumed ≤ k * t ↔
      (consumed / t : ℚ) ≤ k / m.maxAdjustmentFactor.denominator := fun k => by
    rw [div_le_div_iff₀ ht' hd', ← Nat.cast_mul, ← Nat.cast_mul, Nat.cast_le, Nat.mul_comm]
  have hge : ∀ k : Nat, k * t ≤ m.maxAdjustmentFactor.denominator * consumed ↔
      (k / m.maxAdjustmentFactor.denominator : ℚ) ≤ consumed / t := fun k => by
    rw [div_le_div_iff₀ hd' ht', ← Nat.cast_mul, ← Nat.cast_mul, Nat.cast_le, Nat.mul_comm consumed]
  have hα := m.maxAdjustmentFactor.val_pos
  unfold newPrice exactStoragePrice
  simp only [hle, hge, ← ProperFraction.one_sub_val, ← ProperFraction.one_add_val]
  split
  · rename_i h
    rw [min_eq_left (h.trans (by linarith)), max_eq_left h, divCeil_eq_ceil hd,
      ProperFraction.one_sub_val, Nat.cast_mul, mul_div_assoc]
  · rename_i hdown
    split
    · rename_i h
      rw [min_eq_right h, max_eq_right (by linarith), divCeil_eq_ceil hd,
        ProperFraction.one_add_val, Nat.cast_mul, mul_div_assoc]
    · rename_i hup
      rw [min_eq_left (not_le.mp hup).le, max_eq_right (not_le.mp hdown).le, divCeil_eq_ceil ht,
        Nat.cast_mul, mul_div_assoc]

theorem exactStoragePrice_bounds (m : StorageMarketConfig) (price consumed ema : Nat) :
    (1 - m.maxAdjustmentFactor.val) * price ≤ m.exactStoragePrice price consumed ema ∧
      m.exactStoragePrice price consumed ema ≤ (1 + m.maxAdjustmentFactor.val) * price := by
  have hα := m.maxAdjustmentFactor.val_pos
  rw [mul_comm, mul_comm (1 + _), exactStoragePrice]
  refine ⟨mul_le_mul_of_nonneg_left (le_max_left _ _) (Nat.cast_nonneg _),
    mul_le_mul_of_nonneg_left (max_le (by linarith) (min_le_right _ _)) (Nat.cast_nonneg _)⟩

theorem exactStoragePrice_pos (hprice : 0 < price) : 0 < m.exactStoragePrice price consumed ema := by
  have hα := m.maxAdjustmentFactor.val_lt_one
  refine lt_of_lt_of_le ?_ (m.exactStoragePrice_bounds price consumed ema).1
  exact mul_pos (by linarith) (Nat.cast_pos.mpr hprice)

theorem exactStoragePrice_le (h : price' ≤ price) :
    m.exactStoragePrice price' consumed ema ≤ m.exactStoragePrice price consumed ema := by
  have hα := m.maxAdjustmentFactor.val_lt_one
  exact mul_le_mul_of_nonneg_right (Nat.cast_le.mpr h) (le_max_of_le_left (by linarith))

/-- No operation leaves its word. The price is held while the average is zero; otherwise it is the
exact price rounded up, which moves by at most the largest adjustment and keeps the order of prices.
-/
theorem storage_market_exact (m : StorageMarketConfig) (hm : m.Typed) (price consumed ema : Nat)
    (hprice : 1 ≤ price) (hword : price < 2 ^ 64) (hconsumed : consumed < 2 ^ 64)
    (hema : ema < 2 ^ 64) :
    let α := m.maxAdjustmentFactor
    let t := (updateStorageMarket price consumed ema m).2
    let new := (updateStorageMarket price consumed ema m).1
    m.updateInWords price consumed ema = updateStorageMarket price consumed ema m ∧
    min consumed ema ≤ t ∧ t ≤ max consumed ema ∧
    (t = 0 → new = price) ∧
    (t ≠ 0 → ⌈m.exactStoragePrice price consumed t⌉₊ < 2 ^ 64 →
      new = ⌈m.exactStoragePrice price consumed t⌉₊ ∧ 0 < new ∧
      ⌈(1 - α.val) * price⌉₊ ≤ new ∧ new ≤ ⌈(1 + α.val) * price⌉₊ ∧
      ∀ price' ≤ price, (updateStorageMarket price' consumed ema m).1 ≤ new) ∧
    (t ≠ 0 → α.denominator * consumed = (α.denominator - α.numerator) * t →
      divCeil (price * (α.denominator - α.numerator)) α.denominator =
        divCeil (price * consumed) t) ∧
    (t ≠ 0 → α.denominator * consumed = (α.denominator + α.numerator) * t →
      divCeil (price * (α.denominator + α.numerator)) α.denominator =
        divCeil (price * consumed) t) := by
  intro α t new
  have ht : t = m.newEma consumed ema := by
    change (updateStorageMarket price consumed ema m).2 = _
    rw [update_eq hconsumed hema]
    split <;> rfl
  have hagree : t ≠ 0 → ∀ k, α.denominator * consumed = k * t →
      divCeil (price * k) α.denominator = divCeil (price * consumed) t := by
    intro hne k hk
    have ht0 : (t : ℚ) ≠ 0 := Nat.cast_ne_zero.mpr hne
    have hk' : (α.denominator : ℚ) * consumed = k * t := by exact_mod_cast hk
    rw [divCeil_eq_ceil α.denominator_pos, divCeil_eq_ceil (Nat.pos_of_ne_zero hne), Nat.cast_mul,
      Nat.cast_mul]
    congr 1
    rw [div_eq_div_iff α.cast_denominator_pos.ne' ht0, mul_assoc, mul_assoc, ← hk']
    ring
  have hbounds := m.newEma_bounds consumed ema
  rw [← ht] at hbounds
  refine ⟨updateInWords_eq hm hword hconsumed hema, hbounds.1, hbounds.2, fun h0 => ?_,
    fun hne hfits => ?_, fun hne => hagree hne _, fun hne => hagree hne _⟩
  · change (updateStorageMarket price consumed ema m).1 = price
    rw [update_eq hconsumed hema, if_pos (ht ▸ h0)]
  · have hvalue : ∀ q, (updateStorageMarket q consumed ema m).1 =
        ⌈m.exactStoragePrice q consumed t⌉₊ % 2 ^ 64 := fun q => by
      rw [update_eq hconsumed hema, if_neg (ht ▸ hne), ← ht, newPrice_eq (Nat.pos_of_ne_zero hne)]
    have hnew : new = ⌈m.exactStoragePrice price consumed t⌉₊ :=
      (hvalue price).trans (Nat.mod_eq_of_lt hfits)
    have hexact := m.exactStoragePrice_bounds price consumed t
    rw [hnew]
    refine ⟨rfl, Nat.ceil_pos.mpr (exactStoragePrice_pos hprice), Nat.ceil_le_ceil hexact.1,
      Nat.ceil_le_ceil hexact.2, fun price' hle => ?_⟩
    rw [hvalue]
    exact (Nat.mod_le _ _).trans (Nat.ceil_le_ceil (exactStoragePrice_le hle))

theorem storage_market_exact_quarter :
    ∃ m : StorageMarketConfig, m.Typed ∧
      (updateStorageMarket 100 250 150 m) = (125, 200) ∧
      0 < (updateStorageMarket 100 250 150 m).1 := by
  let m : StorageMarketConfig := ⟨.half, .half⟩
  have hm : m.Typed := ⟨by decide, by decide⟩
  have hexact : (updateStorageMarket 100 250 150 m) = (125, 200) := by decide
  obtain ⟨-, -, -, -, hstep, -⟩ := storage_market_exact m hm 100 250 150 (by decide) (by decide)
    (by decide) (by decide)
  refine ⟨m, hm, hexact, (hstep (by decide) ?_).2.1⟩
  rw [← newPrice_eq (by decide)]
  decide

end StorageMarketConfig

/-! ## Execution gas -/

namespace ExecutionMarketConfig

/-- What the types of the fields keep. -/
structure Typed (m : ExecutionMarketConfig) : Prop where
  maxGasPerBlock : m.maxGasPerBlock < 2 ^ 64
  feeAdjustmentRate : m.feeAdjustmentRate.denominator < 2 ^ 32
  emaSmoothingFactor : m.emaSmoothingFactor.denominator < 2 ^ 32

/-- `G_target`. -/
def target (m : ExecutionMarketConfig) : Nat := m.maxGasPerBlock / 2

/-- `update_execution_market` in words of 128 bits. -/
def updateInWords (m : ExecutionMarketConfig) (average fee gas : Nat) : Nat × Nat :=
  let word := fun n => n % 2 ^ 128
  let q := m.emaSmoothingFactor
  let newAverage := word (word (word (q.denominator - q.numerator) * gas) +
    word (q.numerator * average)) / q.denominator % 2 ^ 64
  let φ := m.feeAdjustmentRate
  let feeNumerator := word (fee * word (word (word (φ.denominator - φ.numerator) * m.target) +
    word (φ.numerator * newAverage)))
  (newAverage, divCeil feeNumerator (word (φ.denominator * m.target)) % 2 ^ 64)

/-- The base fee, `b·(1 + φ·(G_avg - G_target) / G_target)`. -/
def exactBaseFee (m : ExecutionMarketConfig) (fee average : Nat) : ℚ :=
  fee * (1 + m.feeAdjustmentRate.val * (average - m.target) / m.target)

/-- The new average of execution gas. -/
def newAverage (m : ExecutionMarketConfig) (average gas : Nat) : Nat :=
  ((m.emaSmoothingFactor.denominator - m.emaSmoothingFactor.numerator) * gas +
    m.emaSmoothingFactor.numerator * average) / m.emaSmoothingFactor.denominator

/-- The product that the base fee is divided out of. -/
def feeProduct (m : ExecutionMarketConfig) (fee average : Nat) : Nat :=
  fee * ((m.feeAdjustmentRate.denominator - m.feeAdjustmentRate.numerator) * m.target +
    m.feeAdjustmentRate.numerator * average)

variable {m : ExecutionMarketConfig} {fee fee' average average' gas gas' x d : Nat}

theorem target_pos (m : ExecutionMarketConfig) : 0 < m.target :=
  Nat.div_pos m.maxGasPerBlock_ge Nat.two_pos

theorem scale_pos (m : ExecutionMarketConfig) : 0 < m.feeAdjustmentRate.denominator * m.target :=
  Nat.mul_pos m.feeAdjustmentRate.denominator_pos m.target_pos

theorem newAverage_bounds (m : ExecutionMarketConfig) (average gas : Nat) :
    min average gas ≤ m.newAverage average gas ∧ m.newAverage average gas ≤ max average gas := by
  rw [newAverage, Nat.add_comm]
  exact m.emaSmoothingFactor.average_bounds

theorem newAverage_le_newAverage (h : gas' ≤ gas) :
    m.newAverage average gas' ≤ m.newAverage average gas :=
  Nat.div_le_div_right (Nat.add_le_add_right (Nat.mul_le_mul_left _ h) _)

theorem feeProduct_le_feeProduct (hfee : fee' ≤ fee) (h : average' ≤ average) :
    m.feeProduct fee' average' ≤ m.feeProduct fee average :=
  Nat.mul_le_mul hfee (Nat.add_le_add_left (Nat.mul_le_mul_left _ h) _)

theorem after_eq (haverage : average < 2 ^ 64) (hgas : gas < 2 ^ 64) :
    executionMarketAfter average fee gas m = (m.newAverage average gas,
      divCeil (m.feeProduct fee (m.newAverage average gas) % 2 ^ 128)
        (m.feeAdjustmentRate.denominator * m.target) % 2 ^ 64) := by
  have hlt : m.newAverage average gas < 2 ^ 64 :=
    (m.newAverage_bounds average gas).2.trans_lt (max_lt haverage hgas)
  have hcode : executionMarketAfter average fee gas m = (fun a => (a,
      divCeil (m.feeProduct fee a % 2 ^ 128) (m.feeAdjustmentRate.denominator * m.target) % 2 ^ 64))
      (m.newAverage average gas % 2 ^ 64) := rfl
  rw [hcode, Nat.mod_eq_of_lt hlt]

theorem updateInWords_eq (hm : m.Typed) (haverage : average < 2 ^ 64) (hgas : gas < 2 ^ 64) :
    m.updateInWords average fee gas = executionMarketAfter average fee gas m := by
  have htarget : m.target < 2 ^ 64 := (Nat.div_le_self _ _).trans_lt hm.maxGasPerBlock
  have hscale : m.feeAdjustmentRate.denominator * m.target < 2 ^ 128 :=
    (Nat.mul_lt_mul'' hm.feeAdjustmentRate htarget).trans (by decide)
  have hlt : m.newAverage average gas < 2 ^ 64 :=
    (m.newAverage_bounds average gas).2.trans_lt (max_lt haverage hgas)
  rw [after_eq haverage hgas]
  simp only [updateInWords]
  rw [ProperFraction.mix_words _ hm.emaSmoothingFactor hgas haverage,
    show _ / m.emaSmoothingFactor.denominator = m.newAverage average gas from rfl,
    Nat.mod_eq_of_lt hlt, ProperFraction.mix_words _ hm.feeAdjustmentRate htarget hlt,
    Nat.mod_eq_of_lt hscale]
  rfl

theorem divCeil_feeProduct (m : ExecutionMarketConfig) (fee average : Nat) :
    divCeil (m.feeProduct fee average) (m.feeAdjustmentRate.denominator * m.target) =
      ⌈m.exactBaseFee fee average⌉₊ := by
  have ht : (m.target : ℚ) ≠ 0 := Nat.cast_ne_zero.mpr m.target_pos.ne'
  have hd := m.feeAdjustmentRate.cast_denominator_pos.ne'
  rw [divCeil_eq_ceil m.scale_pos, feeProduct, exactBaseFee, ProperFraction.val]
  congr 1
  push_cast [Nat.cast_sub m.feeAdjustmentRate.numerator_lt.le]
  field_simp
  ring

/-- A product that wraps loses a unit of the quotient. -/
theorem divCeil_wrapped_lt (hd : 0 < d) (hle : d ≤ 2 ^ 128) (hx : 2 ^ 128 ≤ x) :
    divCeil (x % 2 ^ 128) d < divCeil x d := by
  have hmod : x % 2 ^ 128 + d ≤ x := by
    have := Nat.mod_add_div x (2 ^ 128)
    have := Nat.div_pos hx (by decide)
    omega
  calc divCeil (x % 2 ^ 128) d < divCeil (x % 2 ^ 128) d + 1 := Nat.lt_succ_self _
    _ = divCeil (x % 2 ^ 128 + d) d := by
      rw [divCeil, divCeil, ← Nat.add_div_right _ hd]
      congr 1
      omega
    _ ≤ divCeil x d := divCeil_le_divCeil hd hmod

/-- The new base fee is the exact one, rounded up, exactly if the product it is divided out of is a
word; then it is not zero and keeps the order of the gas of the block and of base fees. -/
theorem execution_market_iff (m : ExecutionMarketConfig) (hm : m.Typed) (average fee gas : Nat)
    (hfee : 1 ≤ fee) (haverage : average ≤ m.maxGasPerBlock) (hgas : gas ≤ m.maxGasPerBlock) :
    let avg := m.newAverage average gas
    let new := (executionMarketAfter average fee gas m).2
    m.updateInWords average fee gas = executionMarketAfter average fee gas m ∧
    (executionMarketAfter average fee gas m).1 = avg ∧
    min average gas ≤ avg ∧ avg ≤ max average gas ∧
    (⌈m.exactBaseFee fee avg⌉₊ < 2 ^ 64 →
      (new = ⌈m.exactBaseFee fee avg⌉₊ ↔ m.feeProduct fee avg < 2 ^ 128) ∧
      (m.feeProduct fee avg < 2 ^ 128 → 0 < new ∧ (avg = m.target → new = fee) ∧
        (∀ gas' ≤ gas, (executionMarketAfter average fee gas' m).2 ≤ new) ∧
        ∀ fee' ≤ fee, (executionMarketAfter average fee' gas m).2 ≤ new)) := by
  have haverage' := haverage.trans_lt hm.maxGasPerBlock
  have hgas' := hgas.trans_lt hm.maxGasPerBlock
  have hafter : executionMarketAfter average fee gas m = _ := after_eq haverage' hgas'
  have hscale : m.feeAdjustmentRate.denominator * m.target ≤ 2 ^ 128 :=
    (Nat.mul_le_mul hm.feeAdjustmentRate.le
      ((Nat.div_le_self _ _).trans hm.maxGasPerBlock.le)).trans (by decide)
  rw [hafter]
  dsimp only
  generalize havg : m.newAverage average gas = avg
  have hbounds := m.newAverage_bounds average gas
  rw [havg] at hbounds
  refine ⟨(updateInWords_eq hm haverage' hgas').trans (by rw [hafter, havg]), rfl, hbounds.1,
    hbounds.2, fun hfits => ?_⟩
  rw [← divCeil_feeProduct] at hfits ⊢
  -- a base fee computed from smaller values is at most this one
  have hmono : ∀ {fee' avg'}, fee' ≤ fee → avg' ≤ avg → m.feeProduct fee avg < 2 ^ 128 →
      divCeil (m.feeProduct fee' avg' % 2 ^ 128) (m.feeAdjustmentRate.denominator * m.target) %
        2 ^ 64 ≤ divCeil (m.feeProduct fee avg) (m.feeAdjustmentRate.denominator * m.target) :=
    fun hf ha hlt => (Nat.mod_le _ _).trans (divCeil_le_divCeil m.scale_pos
      ((Nat.mod_le _ _).trans (feeProduct_le_feeProduct hf ha)))
  have hexact : m.feeProduct fee avg < 2 ^ 128 →
      divCeil (m.feeProduct fee avg % 2 ^ 128) (m.feeAdjustmentRate.denominator * m.target) %
        2 ^ 64 = divCeil (m.feeProduct fee avg) (m.feeAdjustmentRate.denominator * m.target) :=
    fun hlt => by rw [Nat.mod_eq_of_lt hlt, Nat.mod_eq_of_lt hfits]
  refine ⟨⟨fun heq => ?_, hexact⟩, fun hlt => ?_⟩
  · by_contra hge
    have hless := divCeil_wrapped_lt m.scale_pos hscale (not_lt.mp hge)
    rw [Nat.mod_eq_of_lt (hless.trans hfits)] at heq
    exact hless.ne heq
  · rw [hexact hlt]
    refine ⟨divCeil_pos m.scale_pos ?_, fun htarget => ?_, fun gas' hle => ?_, fun fee' hle => ?_⟩
    · have hφ := Nat.sub_pos_of_lt m.feeAdjustmentRate.numerator_lt
      exact Nat.mul_pos hfee (Nat.add_pos_left (Nat.mul_pos hφ m.target_pos) _)
    · rw [divCeil_feeProduct, exactBaseFee, htarget, sub_self, mul_zero, zero_div, add_zero, mul_one,
        Nat.ceil_natCast]
    · rw [after_eq haverage' (hle.trans_lt hgas')]
      exact hmono le_rfl (havg ▸ newAverage_le_newAverage hle) hlt
    · rw [after_eq haverage' hgas', havg]
      exact hmono hle le_rfl hlt

theorem execution_market_iff_quarter :
    ∃ m : ExecutionMarketConfig, m.Typed ∧ executionMarketAfter 50 1000 100 m = (75, 1250) ∧
      0 < (executionMarketAfter 50 1000 100 m).2 := by
  let m : ExecutionMarketConfig := ⟨100, .half, .half, by decide⟩
  have hm : m.Typed := ⟨by decide, by decide, by decide⟩
  obtain ⟨-, -, -, -, hspec⟩ := execution_market_iff m hm 50 1000 100 (by decide) (by decide) (by decide)
  refine ⟨m, hm, by decide, ((hspec ?_).2 (by decide)).1⟩
  rw [← divCeil_feeProduct]
  decide

/-- With a large target and a small adjustment a base fee of `2 ^ 35` becomes zero at the target. -/
theorem base_fee_becomes_zero :
    ∃ m : ExecutionMarketConfig, m.Typed ∧ m.target = 2 ^ 62 ∧
      ⌈m.exactBaseFee (2 ^ 35) (2 ^ 62)⌉₊ = 2 ^ 35 ∧
      executionMarketAfter (2 ^ 62) (2 ^ 35) (2 ^ 62) m = (2 ^ 62, 0) := by
  let m : ExecutionMarketConfig :=
    ⟨2 ^ 63, ⟨1, 2 ^ 31, by decide, by decide⟩, .half, by decide⟩
  refine ⟨m, ⟨by decide, by decide, by decide⟩, by decide, ?_, by decide⟩
  rw [← divCeil_feeProduct]
  decide

end ExecutionMarketConfig

end Logos.Ledger
