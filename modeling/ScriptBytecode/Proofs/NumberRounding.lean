import Mathlib.Tactic.Linarith
import Mathlib.Tactic.Ring
import ScriptBytecode.Binary32.Reading
import ScriptBytecode.Binary32.Shortest

/-!
# Rounding decimals

Every decimal in the rounding interval of a positive finite number is read as that number, and the
shortest decimal of a number lies in its rounding interval.
-/

namespace ScriptBytecode
namespace Binary32

variable {number : Binary32} {numerator : Nat} {exponent : Int} {denominator : Nat}

/-- A finite number other than zero. -/
structure Ordinary (number : Binary32) : Prop where
  finite : number.exponentField < 255
  notZero : 0 < number.significand

/-! ## Significands -/

theorem significand_lt (number : Binary32) : number.significand < 2 ^ 24 := by
  have fraction : number.fractionField < 2 ^ 23 := Nat.mod_lt _ (by decide)
  unfold significand
  split <;> omega

/-- Only the numbers at the bottom of the range have short significands. -/
theorem le_significand
    (scaled : 0 < number.scale) :
    2 ^ 23 ≤ number.significand := by
  unfold scale at scaled
  unfold significand
  rw [if_neg (by omega)]
  omega

theorem Ordinary.scale_le (ordinary : number.Ordinary) :
    number.scale ≤ 253 := by
  have finite := ordinary.finite
  unfold scale
  omega

/-- The bits of a number are its sign, its scale and its significand. -/
theorem toNat_bits (number : Binary32) :
    number.bits.toNat =
      (if number.isNegative then 0x80000000 else 0) +
        (number.scale * 2 ^ 23 + number.significand) := by
  have bound := number.bits.toNat_lt
  unfold isNegative scale significand exponentField fractionField
  simp only [decide_eq_true_eq]
  split <;> split <;> omega

/-! ## Shifts as powers -/

/-- The width of the rounding interval below a number, in quarters of its unit. -/
def widthBelow (number : Binary32) : Nat :=
  if number.significand = 2 ^ 23 ∧ 0 < number.scale then 1 else 2

theorem widthBelow_bounds (number : Binary32) :
    0 < number.widthBelow ∧ number.widthBelow ≤ 2 := by
  unfold widthBelow
  split <;> omega

theorem roundingInterval_eq (number : Binary32) :
    number.roundingInterval =
      { low := (4 * number.significand - number.widthBelow) * 2 ^ number.scale
        value := 4 * number.significand * 2 ^ number.scale
        high := (4 * number.significand + 2) * 2 ^ number.scale
        closed := number.significand % 2 == 0 } := by
  simp only [roundingInterval, Nat.one_shiftLeft]
  rfl

theorem gridStep_eq (exponent : Int) :
    RoundingInterval.gridStep exponent =
      (2 ^ 151 * 10 ^ exponent.toNat, 10 ^ (-exponent).toNat) := by
  unfold RoundingInterval.gridStep
  rw [Nat.shiftLeft_eq, Nat.mul_comm, Nat.pow_eq, Nat.pow_eq]

theorem magnitudeBits_eq_rounded (numerator denominator : Nat) :
    magnitudeBits numerator denominator =
      ((numerator * 2 ^ 149 / denominator).log2 - 23) * 2 ^ 23 +
        roundQuotient (numerator * 2 ^ 149)
          (denominator * 2 ^ ((numerator * 2 ^ 149 / denominator).log2 - 23)) := by
  simp only [magnitudeBits, Nat.shiftLeft_eq]
  rfl

/-! ## Quotients -/

/-- A quotient is rounded to an integer that is at most a half away from it, and even if it is just
a half away. -/
theorem roundQuotient_eq
    {nearest : Nat}
    (positive : 0 < denominator)
    (notBelow : 2 * (nearest * denominator) ≤ 2 * numerator + denominator)
    (notAbove : 2 * numerator ≤ 2 * (nearest * denominator) + denominator)
    (tie : nearest % 2 = 1 → 2 * (nearest * denominator) < 2 * numerator + denominator ∧
      2 * numerator < 2 * (nearest * denominator) + denominator) :
    roundQuotient numerator denominator = nearest := by
  have divided := Nat.div_add_mod' numerator denominator
  have remainder := Nat.mod_lt numerator positive
  simp only [roundQuotient]
  generalize numerator / denominator = floor at *
  generalize numerator % denominator = rest at *
  have atLeast : 2 * floor ≤ 2 * nearest + 1 := by
    apply Nat.le_of_mul_le_mul_right _ positive
    linarith
  have atMost : 2 * nearest < 2 * floor + 3 := by
    apply Nat.lt_of_mul_lt_mul_right (a := denominator)
    linarith
  obtain rfl | rfl : nearest = floor ∨ nearest = floor + 1 := by omega
  · split
    · rfl
    · split <;> omega
  · have expanded : (floor + 1) * denominator = floor * denominator + denominator :=
      Nat.succ_mul floor denominator
    rw [expanded] at notBelow notAbove tie
    split
    · omega
    · split <;> omega

theorem log2_div_eq
    (exponent : Nat)
    (positive : 0 < denominator)
    (notBelow : 2 ^ exponent * denominator ≤ numerator)
    (below : numerator < 2 ^ (exponent + 1) * denominator) :
    (numerator / denominator).log2 = exponent := by
  have atLeast := (Nat.le_div_iff_mul_le positive).mpr notBelow
  have notZero : numerator / denominator ≠ 0 := by
    have powerPositive := Nat.two_pow_pos exponent
    omega
  exact Nat.log2_eq_iff notZero |>.mpr ⟨atLeast, (Nat.div_lt_iff_lt_mul positive).mpr below⟩

/-! ## Reading -/

/-- A quotient that lies in the rounding interval of a number, in units of `2 ^ -151`.  The ends of
the interval count for even significands only. -/
structure RoundsTo (number : Binary32) (numerator denominator : Nat) : Prop where
  positive : 0 < denominator
  notBelow : number.roundingInterval.low * denominator ≤ numerator * 2 ^ 151
  notAbove : numerator * 2 ^ 151 ≤ number.roundingInterval.high * denominator
  inside : number.significand % 2 = 1 →
    number.roundingInterval.low * denominator < numerator * 2 ^ 151 ∧
      numerator * 2 ^ 151 < number.roundingInterval.high * denominator

section Magnitude

variable {significand scale scaled denominator : Nat}

/-- A quotient with the scale of the number is rounded to its significand. -/
theorem roundQuotient_significand
    (positive : 0 < denominator)
    (notBelow : 4 * (significand * (denominator * 2 ^ scale)) ≤
      4 * scaled + 2 * (denominator * 2 ^ scale))
    (notAbove : 4 * scaled ≤
      4 * (significand * (denominator * 2 ^ scale)) + 2 * (denominator * 2 ^ scale))
    (inside : significand % 2 = 1 →
      4 * (significand * (denominator * 2 ^ scale)) < 4 * scaled + 2 * (denominator * 2 ^ scale) ∧
        4 * scaled <
          4 * (significand * (denominator * 2 ^ scale)) + 2 * (denominator * 2 ^ scale)) :
    roundQuotient scaled (denominator * 2 ^ scale) = significand := by
  apply roundQuotient_eq (Nat.mul_pos positive (Nat.two_pow_pos scale))
  · omega
  · omega
  · intro odd
    have strict := inside odd
    omega

/-- A quotient just below a power of two is rounded up to it on the finer scale. -/
theorem roundQuotient_carry
    (positive : 0 < denominator)
    (notBelow : 4 * (2 ^ 23 * (denominator * 2 ^ (scale + 1))) ≤
      4 * scaled + denominator * 2 ^ (scale + 1))
    (below : scaled < 2 ^ 23 * (denominator * 2 ^ (scale + 1))) :
    roundQuotient scaled (denominator * 2 ^ scale) = 2 ^ 24 := by
  have doubled : denominator * 2 ^ (scale + 1) = 2 * (denominator * 2 ^ scale) := by
    ring
  rw [doubled] at notBelow below
  apply roundQuotient_eq (Nat.mul_pos positive (Nat.two_pow_pos scale))
  · omega
  · omega
  · intro odd
    omega

/-- The scale of a quotient that is not below the least significand of the number's scale. -/
theorem log2_sub_eq
    (positive : 0 < denominator)
    (small : significand < 2 ^ 24)
    (notAbove : 4 * scaled ≤
      4 * (significand * (denominator * 2 ^ scale)) + 2 * (denominator * 2 ^ scale))
    (reaches : 0 < scale → 2 ^ 23 * (denominator * 2 ^ scale) ≤ scaled) :
    (scaled / denominator).log2 - 23 = scale := by
  have unitPositive : 0 < denominator * 2 ^ scale :=
    Nat.mul_pos positive (Nat.two_pow_pos scale)
  have below : scaled < 2 ^ 24 * (denominator * 2 ^ scale) := by
    have next := Nat.mul_le_mul_right (denominator * 2 ^ scale) (Nat.succ_le_of_lt small)
    rw [Nat.succ_mul] at next
    omega
  cases scale with
  | zero =>
      rw [Nat.pow_zero, Nat.mul_one] at below
      have quotient := (Nat.div_lt_iff_lt_mul positive).mpr below
      by_cases zero : scaled / denominator = 0
      · rw [zero]
        rfl
      · have exponent := (Nat.log2_lt zero).mpr quotient
        omega
  | succ scale =>
      rw [log2_div_eq (23 + (scale + 1)) positive, Nat.add_sub_cancel_left]
      · rw [Nat.pow_add, Nat.mul_assoc, Nat.mul_comm (2 ^ (scale + 1))]
        exact reaches (Nat.succ_pos scale)
      · rw [Nat.add_right_comm, Nat.pow_add, Nat.mul_assoc, Nat.mul_comm (2 ^ (scale + 1))]
        exact below

/-- The scale of a quotient just below the least significand of the number's scale. -/
theorem log2_sub_eq_of_lt
    (positive : 0 < denominator)
    (notBelow : 4 * (2 ^ 23 * (denominator * 2 ^ (scale + 1))) ≤
      4 * scaled + denominator * 2 ^ (scale + 1))
    (below : scaled < 2 ^ 23 * (denominator * 2 ^ (scale + 1))) :
    (scaled / denominator).log2 - 23 = scale := by
  rw [log2_div_eq (22 + (scale + 1)) positive]
  · omega
  · rw [Nat.pow_add, Nat.mul_assoc, Nat.mul_comm (2 ^ (scale + 1))]
    omega
  · rw [Nat.add_right_comm, Nat.pow_add, Nat.mul_assoc, Nat.mul_comm (2 ^ (scale + 1))]
    exact below

end Magnitude

theorem RoundsTo.bounds
    (rounds : RoundsTo number numerator denominator) :
    4 * (number.significand * (denominator * 2 ^ number.scale)) ≤
        4 * (numerator * 2 ^ 149) + number.widthBelow * (denominator * 2 ^ number.scale) ∧
      4 * (numerator * 2 ^ 149) ≤
        4 * (number.significand * (denominator * 2 ^ number.scale)) +
          2 * (denominator * 2 ^ number.scale) ∧
      (number.significand % 2 = 1 →
        4 * (number.significand * (denominator * 2 ^ number.scale)) <
            4 * (numerator * 2 ^ 149) + number.widthBelow * (denominator * 2 ^ number.scale) ∧
          4 * (numerator * 2 ^ 149) <
            4 * (number.significand * (denominator * 2 ^ number.scale)) +
              2 * (denominator * 2 ^ number.scale)) := by
  obtain ⟨positive, notBelow, notAbove, inside⟩ := rounds
  have scaledBy : numerator * 2 ^ 151 = 4 * (numerator * 2 ^ 149) := by
    ring
  have high : number.roundingInterval.high * denominator =
      4 * (number.significand * (denominator * 2 ^ number.scale)) +
        2 * (denominator * 2 ^ number.scale) := by
    simp only [roundingInterval_eq]
    ring
  have low : 4 * (number.significand * (denominator * 2 ^ number.scale)) ≤
      number.roundingInterval.low * denominator +
        number.widthBelow * (denominator * 2 ^ number.scale) := by
    have parts : 4 * number.significand ≤
        4 * number.significand - number.widthBelow + number.widthBelow := by omega
    have widened := Nat.mul_le_mul_right (denominator * 2 ^ number.scale) parts
    calc 4 * (number.significand * (denominator * 2 ^ number.scale))
        = 4 * number.significand * (denominator * 2 ^ number.scale) := by ring
      _ ≤ (4 * number.significand - number.widthBelow + number.widthBelow) *
            (denominator * 2 ^ number.scale) := widened
      _ = number.roundingInterval.low * denominator +
            number.widthBelow * (denominator * 2 ^ number.scale) := by
          simp only [roundingInterval_eq]
          ring
  rw [scaledBy] at notBelow notAbove inside
  rw [high] at notAbove inside
  refine ⟨by omega, notAbove, fun odd => ?_⟩
  have strict := inside odd
  omega

/-- A quotient in the rounding interval has the magnitude of the number. -/
theorem magnitudeBits_eq
    (rounds : RoundsTo number numerator denominator) :
    magnitudeBits numerator denominator = number.scale * 2 ^ 23 + number.significand := by
  have positive := rounds.positive
  obtain ⟨notBelow, notAbove, inside⟩ := rounds.bounds
  have unitPositive : 0 < denominator * 2 ^ number.scale :=
    Nat.mul_pos positive (Nat.two_pow_pos _)
  have narrow : number.widthBelow * (denominator * 2 ^ number.scale) ≤
      2 * (denominator * 2 ^ number.scale) :=
    Nat.mul_le_mul_right _ number.widthBelow_bounds.2
  rw [magnitudeBits_eq_rounded]
  by_cases reaches : 0 < number.scale →
      2 ^ 23 * (denominator * 2 ^ number.scale) ≤ numerator * 2 ^ 149
  · rw [log2_sub_eq positive number.significand_lt notAbove reaches,
      roundQuotient_significand positive (by omega) notAbove]
    intro odd
    have strict := inside odd
    omega
  · -- the quotient has the next finer scale, and rounding carries into the exponent
    rw [Classical.not_imp, Nat.not_le] at reaches
    obtain ⟨hasScale, below⟩ := reaches
    have normal := le_significand hasScale
    have least : number.significand = 2 ^ 23 := by
      by_contra different
      have larger : 2 ^ 23 + 1 ≤ number.significand := by omega
      have wide := Nat.mul_le_mul_right (denominator * 2 ^ number.scale) larger
      rw [Nat.add_mul] at wide
      omega
    obtain ⟨scale, isScale⟩ := Nat.exists_eq_succ_of_ne_zero (Nat.pos_iff_ne_zero.mp hasScale)
    rw [widthBelow, if_pos ⟨least, hasScale⟩, Nat.one_mul, least, isScale] at notBelow
    rw [isScale] at below
    rw [log2_sub_eq_of_lt positive notBelow below, roundQuotient_carry positive notBelow below,
      isScale, least]
    omega

/-- A quotient in the rounding interval is read as the number. -/
theorem ofQuotient_eq
    (ordinary : number.Ordinary)
    (rounds : RoundsTo number numerator denominator) :
    ofQuotient number.isNegative numerator denominator = number := by
  have scale := ordinary.scale_le
  have significand := number.significand_lt
  have bits := number.toNat_bits
  simp only [ofQuotient, magnitudeBits_eq rounds]
  rw [if_neg (by omega), ← bits, UInt32.ofNat_toNat]

theorem contains_iff
    {digits : Nat} :
    number.roundingInterval.contains exponent digits = true ↔
      RoundsTo number (digits * 10 ^ exponent.toNat) (10 ^ (-exponent).toNat) := by
  have point : digits * (2 ^ 151 * 10 ^ exponent.toNat) =
      digits * 10 ^ exponent.toNat * 2 ^ 151 := by
    ring
  have closed : number.roundingInterval.closed = (number.significand % 2 == 0) := rfl
  have positive : 0 < 10 ^ (-exponent).toNat := Nat.pow_pos (by decide)
  simp only [RoundingInterval.contains, gridStep_eq, point, closed]
  constructor
  · intro inside
    split at inside <;> rename_i isEven <;>
      simp only [beq_iff_eq, decide_eq_true_eq] at isEven inside
    · exact ⟨positive, inside.1, inside.2, fun odd => by omega⟩
    · exact ⟨positive, Nat.le_of_lt inside.1, Nat.le_of_lt inside.2, fun _ => inside⟩
  · rintro ⟨-, notBelow, notAbove, inside⟩
    split <;> rename_i isEven <;> simp only [beq_iff_eq, decide_eq_true_eq] at isEven ⊢
    · exact ⟨notBelow, notAbove⟩
    · exact inside (by omega)

theorem Ordinary.two_le_low (ordinary : number.Ordinary) :
    2 ≤ number.roundingInterval.low := by
  have notZero := ordinary.notZero
  have width := number.widthBelow_bounds
  have unit := Nat.two_pow_pos number.scale
  simp only [roundingInterval_eq]
  exact Nat.le_trans (by omega) (Nat.le_mul_of_pos_right _ unit)

theorem Ordinary.high_lt (ordinary : number.Ordinary) :
    number.roundingInterval.high < 2 ^ 279 := by
  have scale := ordinary.scale_le
  have significand := number.significand_lt
  simp only [roundingInterval_eq]
  calc (4 * number.significand + 2) * 2 ^ number.scale
      ≤ (4 * number.significand + 2) * 2 ^ 253 :=
        Nat.mul_le_mul_left _ (Nat.pow_le_pow_right (by decide) scale)
    _ < 2 ^ 279 := by omega

/-- A decimal in the rounding interval of a number is read as that number. -/
theorem ofDecimal_eq
    (ordinary : number.Ordinary)
    {digits : Nat}
    (inside : number.roundingInterval.contains exponent digits = true) :
    ofDecimal number.isNegative digits exponent = number := by
  rw [contains_iff] at inside
  have low := ordinary.two_le_low
  have high := ordinary.high_lt
  have notZero : digits ≠ 0 := by
    rintro rfl
    have notBelow := inside.notBelow
    have positive := Nat.mul_pos (Nat.lt_of_lt_of_le Nat.zero_lt_two low) inside.positive
    omega
  have notHuge : ¬39 ≤ exponent := by
    intro huge
    have whole : (-exponent).toNat = 0 := by omega
    have power : 10 ^ 39 ≤ digits * 10 ^ exponent.toNat :=
      Nat.le_trans (Nat.pow_le_pow_right (by decide) (by omega))
        (Nat.le_mul_of_pos_left _ (Nat.pos_of_ne_zero notZero))
    have notAbove := inside.notAbove
    rw [whole, Nat.pow_zero, Nat.mul_one] at notAbove
    omega
  have notTiny : ¬(digits.log2 : Int) + 1 + 3 * exponent ≤ -150 := by
    intro tiny
    have fraction : exponent.toNat = 0 := by omega
    have below : digits * 2 ^ 150 < 10 ^ (-exponent).toNat :=
      calc digits * 2 ^ 150
          < 2 ^ (digits.log2 + 1) * 2 ^ 150 :=
            Nat.mul_lt_mul_of_pos_right Nat.lt_log2_self (by decide)
        _ = 2 ^ (digits.log2 + 1 + 150) := (Nat.pow_add 2 _ 150).symm
        _ ≤ 2 ^ (3 * (-exponent).toNat) := Nat.pow_le_pow_right (by decide) (by omega)
        _ = 8 ^ (-exponent).toNat := Nat.pow_mul 2 3 _
        _ ≤ 10 ^ (-exponent).toNat := Nat.pow_le_pow_left (by decide) _
    have notBelow := Nat.le_trans (Nat.mul_le_mul_right _ low) inside.notBelow
    rw [fraction, Nat.pow_zero, Nat.mul_one] at notBelow
    omega
  rw [ofDecimal, if_neg notZero, if_neg notHuge, if_neg notTiny]
  exact ofQuotient_eq ordinary inside

/-! ## Writing -/

namespace RoundingInterval

variable {interval : RoundingInterval}

theorem contains_of_onGrid?
    {exponent : Int} {decimal : Decimal}
    (found : interval.onGrid? exponent = some decimal) :
    decimal.exponent = exponent ∧ interval.contains exponent decimal.digits = true := by
  simp only [onGrid?, gridStep_eq] at found
  split at found <;> rename_i below above <;> cases found
  · refine ⟨rfl, ?_⟩
    simp only
    split
    · exact below
    · exact above
  · exact ⟨rfl, below⟩
  · exact ⟨rfl, above⟩

/-- The search ends in the interval if some grid that it comes to has a decimal there. -/
theorem contains_firstOnGrid
    {steps : Nat} {exponent : Int} {down : Nat}
    (reached : down < steps)
    (fine : (interval.onGrid? (exponent - down)).isSome) :
    interval.contains (interval.firstOnGrid steps exponent).exponent
        (interval.firstOnGrid steps exponent).digits = true ∧
      exponent - steps < (interval.firstOnGrid steps exponent).exponent ∧
      (interval.firstOnGrid steps exponent).exponent ≤ exponent := by
  induction steps generalizing exponent down with
  | zero => omega
  | succ steps ih =>
      cases found : interval.onGrid? exponent with
      | some decimal =>
          obtain ⟨isExponent, inside⟩ := contains_of_onGrid? found
          simp only [firstOnGrid, found, isExponent]
          exact ⟨inside, by omega, Int.le_refl _⟩
      | none =>
          cases down with
          | zero =>
              rw [Int.natCast_zero, Int.sub_zero, found] at fine
              cases fine
          | succ down =>
              have later : (interval.onGrid? (exponent - 1 - down)).isSome := by
                rwa [Int.sub_sub, Int.add_comm 1, ← Int.natCast_succ]
              obtain ⟨inside, notBelow, notAbove⟩ :=
                ih (by omega) later
              simp only [firstOnGrid, found]
              exact ⟨inside, by omega, by omega⟩

end RoundingInterval

/-- A grid that is as fine as the unit of a number has a decimal in its rounding interval. -/
theorem Ordinary.isSome_onGrid?
    (ordinary : number.Ordinary)
    (fine : 2 ^ 151 * 10 ^ exponent.toNat ≤ 2 ^ number.scale * 10 ^ (-exponent).toNat) :
    (number.roundingInterval.onGrid? exponent).isSome := by
  have notZero := ordinary.notZero
  have unitPositive : 0 < 2 ^ number.scale * 10 ^ (-exponent).toNat :=
    Nat.mul_pos (Nat.two_pow_pos _) (Nat.pow_pos (by decide))
  have divided := Nat.div_add_mod' (number.roundingInterval.value * 10 ^ (-exponent).toNat)
    (2 ^ 151 * 10 ^ exponent.toNat)
  have remainder := Nat.mod_lt (number.roundingInterval.value * 10 ^ (-exponent).toNat)
    (show 0 < 2 ^ 151 * 10 ^ exponent.toNat from
      Nat.mul_pos (by decide) (Nat.pow_pos (by decide)))
  have below : number.roundingInterval.low * 10 ^ (-exponent).toNat +
      2 ^ number.scale * 10 ^ (-exponent).toNat ≤
        number.roundingInterval.value * 10 ^ (-exponent).toNat := by
    rw [← Nat.add_mul]
    apply Nat.mul_le_mul_right
    simp only [roundingInterval_eq]
    rw [← Nat.succ_mul]
    apply Nat.mul_le_mul_right
    have width := number.widthBelow_bounds
    omega
  have above : number.roundingInterval.high * 10 ^ (-exponent).toNat =
      number.roundingInterval.value * 10 ^ (-exponent).toNat +
        2 * (2 ^ number.scale * 10 ^ (-exponent).toNat) := by
    simp only [roundingInterval_eq]
    ring
  -- the neighbour below is nearer than the unit, and so it lies inside
  have inside : number.roundingInterval.contains exponent
      (number.roundingInterval.value * 10 ^ (-exponent).toNat /
        (2 ^ 151 * 10 ^ exponent.toNat)) = true := by
    simp only [RoundingInterval.contains, gridStep_eq]
    split <;> exact decide_eq_true (by omega)
  simp only [RoundingInterval.onGrid?, gridStep_eq, inside]
  split <;> first | rfl | simp_all

/-- The last grid of the search is as fine as the unit of any number. -/
theorem finest_grid :
    ∀ scale < 254, ∀ bits < 24,
      2 ^ 151 * 10 ^ ((((scale + 2 + bits : Nat) : Int) - 151) * 30103 / 100000 + 2 - 31).toNat ≤
        2 ^ scale *
          10 ^ (-((((scale + 2 + bits : Nat) : Int) - 151) * 30103 / 100000 + 2 - 31)).toNat := by
  decide +kernel

/-- The shortest decimal of a number lies in its rounding interval. -/
theorem Ordinary.contains_shortest
    (ordinary : number.Ordinary) :
    number.roundingInterval.contains number.shortest.exponent number.shortest.digits = true ∧
      -100 < number.shortest.exponent ∧ number.shortest.exponent < 100 := by
  have notZero := ordinary.notZero
  have scale := ordinary.scale_le
  have significand := number.significand_lt
  have logarithm : number.roundingInterval.value.log2 =
      number.scale + 2 + number.significand.log2 := by
    have isValue : number.roundingInterval.value =
        number.significand * 2 ^ (number.scale + 2) := by
      simp only [roundingInterval_eq]
      ring
    have atLeast := Nat.mul_le_mul_right (2 ^ (number.scale + 2))
      (Nat.log2_self_le (n := number.significand) (by omega))
    have below := Nat.mul_lt_mul_of_pos_right (Nat.lt_log2_self (n := number.significand))
      (Nat.two_pow_pos (number.scale + 2))
    rw [← Nat.pow_add] at atLeast below
    rw [isValue, Nat.log2_eq_iff (by positivity), Nat.add_comm (number.scale + 2)]
    exact ⟨atLeast, by rwa [Nat.add_right_comm] at below⟩
  have bits : number.significand.log2 < 24 := (Nat.log2_lt (by omega)).mpr significand
  have fine := ordinary.isSome_onGrid? (finest_grid number.scale (by omega) _ bits)
  rw [← logarithm] at fine
  have reached : 31 < 32 := by decide
  obtain ⟨inside, notBelow, notAbove⟩ := RoundingInterval.contains_firstOnGrid reached fine
  rw [logarithm] at notBelow notAbove
  refine ⟨inside, ?_, ?_⟩ <;> simp only [shortest, RoundingInterval.coarseExponent, logarithm] <;>
    omega

end Binary32
end ScriptBytecode
