import Mathlib.Data.List.TakeDrop
import ScriptBytecode.Listing.Operands
import ScriptBytecode.Proofs.IntegerText
import ScriptBytecode.Proofs.NumberRounding

/-!
# Reading back numbers

The text of a single-precision number other than NaN is read as that number: its layout keeps the
decimal that was chosen for it, and this decimal rounds to the number.
-/

namespace ScriptBytecode
namespace Binary32

variable {first : Char} {digits : List Char} {char : Char} {chars : List Char} {number : Binary32}
    {rest : List Char} {exponent : Int}

/-! ## Digits -/

/-- A text of decimal digits. -/
def Numeral (chars : List Char) : Prop :=
  ∀ char ∈ chars, char.isDigit = true

theorem numeral_toDigits (number : Nat) : numeral (Nat.toDigits 10 number) = number :=
  Nat.ofDigitChars_ten_toDigits

theorem isNumeral_toDigits (number : Nat) : Numeral (Nat.toDigits 10 number) :=
  fun _ member => Nat.isDigit_of_mem_toDigits (by decide) (by decide) member

theorem isNumeral_zeros (count : Nat) : Numeral (List.replicate count '0') := by
  intro char member
  rw [List.eq_of_mem_replicate member]
  rfl

theorem Numeral.append
    {left right : List Char}
    (isLeft : Numeral left)
    (isRight : Numeral right) :
    Numeral (left ++ right) :=
  List.forall_mem_append.mpr ⟨isLeft, isRight⟩

/-- A text that begins with a digit has no sign. -/
theorem readSign_of_isDigit
    (isDigit : first.isDigit = true)
    (rest : List Char) :
    readSign (first :: rest) = (false, first :: rest) := by
  unfold readSign
  split
  · rename_i isMinus
    cases isMinus
    exact absurd isDigit (by decide)
  · rename_i isPlus
    cases isPlus
    exact absurd isDigit (by decide)
  · rfl

theorem Numeral.readSign_eq (isNumeral : Numeral digits) :
    readSign digits = (false, digits) := by
  cases digits with
  | nil => rfl
  | cons first rest => exact readSign_of_isDigit (isNumeral first List.mem_cons_self) rest

/-- Digits are read up to what follows them. -/
theorem span_isDigit
    (isNumeral : Numeral digits)
    (ends : ∀ char, rest.head? = some char → char.isDigit = false) :
    (digits ++ rest).span Char.isDigit = (digits, rest) := by
  rw [List.span_eq_takeWhile_dropWhile, List.takeWhile_append_of_pos isNumeral,
    List.dropWhile_append_of_pos isNumeral]
  cases rest with
  | nil => simp
  | cons char rest =>
      have notDigit := ends char rfl
      simp [notDigit]

/-- A value that stays below the limit is read in full. -/
theorem foldl_exponentValue
    {value : Nat}
    (small : Nat.ofDigitChars 10 digits value < exponentLimit) :
    digits.foldl
        (fun value digit =>
          if value < exponentLimit then 10 * value + (digit.toNat - '0'.toNat) else value) value =
      Nat.ofDigitChars 10 digits value := by
  induction digits generalizing value with
  | nil => rfl
  | cons digit digits ih =>
      have grows : value ≤ Nat.ofDigitChars 10 (digit :: digits) value := by
        rw [Nat.ofDigitChars_eq_ofDigitChars_zero]
        exact Nat.le_trans (Nat.le_mul_of_pos_left _ (Nat.pow_pos (by decide)))
          (Nat.le_add_right _ _)
      rw [List.foldl_cons, if_pos (Nat.lt_of_le_of_lt grows small)]
      rw [Nat.ofDigitChars_cons] at small ⊢
      exact ih small

theorem exponentValue_toDigits
    {number : Nat}
    (small : number < exponentLimit) :
    exponentValue (Nat.toDigits 10 number) = number := by
  have value : Nat.ofDigitChars 10 (Nat.toDigits 10 number) 0 < exponentLimit := by
    rwa [Nat.ofDigitChars_ten_toDigits]
  have read := foldl_exponentValue value
  rwa [Nat.ofDigitChars_ten_toDigits] at read

/-- The exponent part of a text is read as the exponent. -/
theorem readExponent?_toString
    (small : exponent.natAbs < exponentLimit) :
    readExponent? ('e' :: (toString exponent).toList) = some exponent := by
  have notEmpty : (Nat.toDigits 10 exponent.natAbs).isEmpty = false := by
    simp
  have isNumeral := isNumeral_toDigits exponent.natAbs
  have allDigits : (Nat.toDigits 10 exponent.natAbs).any (!·.isDigit) = false := by
    rw [List.any_eq_false]
    intro char member
    simp [isNumeral char member]
  have value := exponentValue_toDigits small
  rw [Text.toString_int_eq, String.toList_ofList]
  by_cases negative : exponent < 0
  · simp only [readExponent?, negative, if_true, List.singleton_append, readSign, true_or, notEmpty,
      allDigits, Bool.false_eq_true, or_self, if_false, value]
    congr 1
    omega
  · have noSign : readSign (Nat.toDigits 10 exponent.natAbs) =
        (false, Nat.toDigits 10 exponent.natAbs) := isNumeral.readSign_eq
    simp only [readExponent?, negative, if_false, List.nil_append, true_or, if_true, noSign,
      notEmpty, allDigits, Bool.false_eq_true, or_self, value]
    congr 1
    omega

/-! ## Decimals -/

/-- A decimal with digits on either side of the point, and an exponent part or nothing after
them. -/
theorem readDecimal?_point
    {whole fraction : List Char}
    (isWhole : Numeral whole)
    (isFraction : Numeral fraction)
    (notEmpty : whole ≠ [])
    (ends : ∀ char, rest.head? = some char → char.isDigit = false)
    (isExponent : readExponent? rest = some exponent) :
    readDecimal? (whole ++ '.' :: (fraction ++ rest)) =
      some (numeral (whole ++ fraction), exponent - fraction.length) := by
  have point : ∀ char, ('.' :: (fraction ++ rest)).head? = some char → char.isDigit = false := by
    rintro _ ⟨⟩
    rfl
  simp only [readDecimal?, span_isDigit isWhole point, span_isDigit isFraction ends,
    List.isEmpty_iff, notEmpty, false_and, if_false, isExponent, Option.map_some]

/-- A decimal without a point, with an exponent part after it. -/
theorem readDecimal?_exponent
    {whole : List Char}
    (isWhole : Numeral whole)
    (notEmpty : whole ≠ [])
    (isExponent : readExponent? ('e' :: rest) = some exponent) :
    readDecimal? (whole ++ 'e' :: rest) = some (numeral whole, exponent) := by
  have mark : ∀ char, ('e' :: rest).head? = some char → char.isDigit = false := by
    rintro _ ⟨⟩
    rfl
  simp only [readDecimal?, span_isDigit isWhole mark]
  simp [notEmpty, isExponent]

/-- The digits and exponent have the value of a decimal: they are its own, or it is an integer
and they have a zero after the point. -/
def SameValue (decimal : Decimal) (digits : Nat) (exponent : Int) : Prop :=
  digits = decimal.digits ∧ exponent = decimal.exponent ∨
    0 ≤ decimal.exponent ∧ digits = decimal.digits * 10 ^ (decimal.exponent.toNat + 1) ∧
      exponent = -1

/-- Zeros in front of a numeral do not count. -/
theorem numeral_zeros_append (count : Nat) (digits : List Char) :
    numeral (List.replicate count '0' ++ digits) = numeral digits := by
  change Nat.ofDigitChars 10 _ 0 = Nat.ofDigitChars 10 _ 0
  rw [Nat.ofDigitChars_append, Nat.ofDigitChars_replicate_zero, Nat.mul_zero]

/-- Each zero after a numeral stands for a factor of ten. -/
theorem numeral_append_zeros (count : Nat) (digits : List Char) :
    numeral (digits ++ List.replicate count '0') = numeral digits * 10 ^ count := by
  change Nat.ofDigitChars 10 _ 0 = Nat.ofDigitChars 10 _ 0 * 10 ^ count
  rw [Nat.ofDigitChars_append, Nat.ofDigitChars_replicate_zero, Nat.mul_comm]

section Layout

variable
    {chars : List Char}
    {number : Nat}
    {exponent : Int}
    (isNumeral : Numeral chars)
    (value : numeral chars = number)

include isNumeral value

/-- A decimal with its point after the first digit, and an exponent. -/
theorem readDecimal?_scientific
    (notEmpty : chars ≠ [])
    (small : (exponent + chars.length - 1).natAbs < exponentLimit) :
    readDecimal? (chars.take 1 ++ (if (chars.drop 1).isEmpty then [] else '.' :: chars.drop 1) ++
        'e' :: (toString (exponent + chars.length - 1)).toList) =
      some (number, exponent) := by
  have isExponent := readExponent?_toString small
  cases chars with
  | nil => exact absurd rfl notEmpty
  | cons first others =>
      cases others with
      | nil =>
          have read := readDecimal?_exponent isNumeral notEmpty isExponent
          simpa [value] using read
      | cons second others =>
          have read := readDecimal?_point (fun char member => isNumeral char (by simp_all))
            (fun char member => isNumeral char (List.mem_cons_of_mem first member))
            (List.cons_ne_nil first []) (by simp) isExponent
          simp_all
          omega

/-- A decimal below one: the zeros after the point and the digits make up the exponent. -/
theorem readDecimal?_fraction
    {count : Nat}
    (isExponent : exponent = -(count + chars.length : Nat)) :
    readDecimal? ('0' :: '.' :: List.replicate count '0' ++ chars) = some (number, exponent) := by
  have read := readDecimal?_point (isNumeral_zeros 1) ((isNumeral_zeros count).append isNumeral)
    (by simp) (by simp) (show readExponent? [] = some 0 from rfl)
  have digits : numeral (List.replicate 1 '0' ++ (List.replicate count '0' ++ chars)) = number := by
    rw [numeral_zeros_append, numeral_zeros_append, value]
  rw [digits] at read
  simpa [isExponent] using read

/-- An integer: the digits, the zeros up to the point, and one zero after it. -/
theorem readDecimal?_integer
    (notEmpty : chars ≠ [])
    (zeros : Nat) :
    readDecimal? (chars ++ List.replicate zeros '0' ++ '.' :: ['0']) =
      some (number * 10 ^ (zeros + 1), -1) := by
  have read := readDecimal?_point (isNumeral.append (isNumeral_zeros zeros)) (isNumeral_zeros 1)
    (by simp [notEmpty]) (by simp) (show readExponent? [] = some 0 from rfl)
  have digits : numeral (chars ++ List.replicate zeros '0' ++ List.replicate 1 '0') =
      number * 10 ^ (zeros + 1) := by
    rw [List.append_assoc, List.replicate_append_replicate, numeral_append_zeros, value]
  rw [digits] at read
  simpa using read

/-- A decimal with its point between two of its digits. -/
theorem readDecimal?_split
    {place : Nat}
    (inside : 0 < place ∧ place < chars.length)
    (isExponent : exponent = -(chars.length - place : Nat)) :
    readDecimal? (chars.take place ++ '.' :: chars.drop place) = some (number, exponent) := by
  have notNone : chars.take place ≠ [] := by
    rw [← List.length_pos_iff, List.length_take]
    omega
  have isWhole : Numeral (chars.take place) :=
    fun char member => isNumeral char (List.mem_of_mem_take member)
  have isFraction : Numeral (chars.drop place) :=
    fun char member => isNumeral char (List.mem_of_mem_drop member)
  have read := readDecimal?_point isWhole isFraction notNone (by simp)
    (show readExponent? [] = some 0 from rfl)
  rw [List.take_append_drop, value, List.append_nil, List.length_drop, Int.zero_sub,
    ← isExponent] at read
  exact read

end Layout

/-- The layout of a decimal is read as a decimal of the same value. -/
theorem readDecimal?_layout
    {decimal : Decimal}
    (small : (decimal.exponent + (Nat.toDigits 10 decimal.digits).length - 1).natAbs <
      exponentLimit) :
    ∃ digits exponent,
      readDecimal? (listingFormat.layout decimal).toList = some (digits, exponent) ∧
        SameValue decimal digits exponent := by
  obtain ⟨number, exponent⟩ := decimal
  have isNumeral := isNumeral_toDigits number
  have value := numeral_toDigits number
  have notEmpty : Nat.toDigits 10 number ≠ [] := Nat.toDigits_ne_nil
  simp only [NumberFormat.layout, listingFormat]
  simp only at small
  generalize Nat.toDigits 10 number = chars at isNumeral value notEmpty small ⊢
  have positive : 0 < chars.length := List.length_pos_iff.mpr notEmpty
  split
  · refine ⟨number, exponent, ?_, Or.inl ⟨rfl, rfl⟩⟩
    have read := readDecimal?_scientific isNumeral value notEmpty small
    simpa using read
  · split
    · refine ⟨number, exponent, ?_, Or.inl ⟨rfl, rfl⟩⟩
      rw [String.toList_ofList]
      exact readDecimal?_fraction isNumeral value (by omega)
    · rw [String.toList_ofList]
      by_cases whole : 0 ≤ exponent
      · refine ⟨number * 10 ^ (exponent.toNat + 1), -1, ?_, Or.inr ⟨whole, rfl, rfl⟩⟩
        have zeros : (exponent + chars.length - 1).toNat + 1 - chars.length = exponent.toNat := by
          omega
        rw [List.take_of_length_le (by omega), List.drop_of_length_le (by omega), zeros]
        exact readDecimal?_integer isNumeral value notEmpty exponent.toNat
      · refine ⟨number, exponent, ?_, Or.inl ⟨rfl, rfl⟩⟩
        generalize atPoint : (exponent + chars.length - 1).toNat + 1 = place
        have zeros : place - chars.length = 0 := by omega
        have digitsLeft : (chars.drop place).isEmpty = false := by
          rw [List.isEmpty_eq_false_iff, ← List.length_pos_iff, List.length_drop]
          omega
        rw [zeros, List.replicate_zero, List.append_nil, digitsLeft, if_neg Bool.false_ne_true]
        exact readDecimal?_split isNumeral value (by omega) (by omega)

/-! ## Numbers -/

/-- A text that is read as a decimal begins with a digit or the point. -/
theorem isDigit_of_readDecimal?
    {decimal : Nat × Int}
    (read : readDecimal? (first :: rest) = some decimal) :
    first.isDigit = true ∨ first = '.' := by
  by_cases digit : first.isDigit = true
  · exact Or.inl digit
  by_cases point : first = '.'
  · exact Or.inr point
  simp [readDecimal?, List.span_eq_takeWhile_dropWhile, digit, point] at read

theorem toNat_of_isDigit (isDigit : char.isDigit = true) :
    48 ≤ char.toNat ∧ char.toNat ≤ 57 := by
  simp only [Char.isDigit, Bool.and_eq_true, decide_eq_true_eq] at isDigit
  exact isDigit

theorem toLower_of_isDigit (isDigit : char.isDigit = true) :
    char.toLower = char := by
  have range := toNat_of_isDigit isDigit
  unfold Char.toLower
  rw [dif_neg]
  rintro ⟨isUpper, -⟩
  have above : 65 ≤ char.toNat := isUpper
  omega

/-- A text that is read as a decimal is no name of infinity or of NaN. -/
theorem name_ne_of_isDigit
    (begins : first.isDigit = true ∨ first = '.')
    (rest : List Char)
    {name : String}
    (isName : name.toList.head? = some 'i' ∨ name.toList.head? = some 'n') :
    String.ofList ((first :: rest).map Char.toLower) ≠ name := by
  rintro rfl
  obtain digit | rfl := begins
  · simp only [String.toList_ofList, List.map_cons, List.head?_cons, toLower_of_isDigit digit,
      Option.some.injEq] at isName
    obtain rfl | rfl := isName <;> exact absurd digit (by decide)
  · simp only [String.toList_ofList, List.map_cons, List.head?_cons, Option.some.injEq] at isName
    exact absurd isName (by decide)

/-- A text that is read as a decimal stands for the number nearest to it, with a minus in front for
its negation. -/
theorem ofText?_of_readDecimal?
    {digits : Nat}
    (read : readDecimal? chars = some (digits, exponent))
    (negative : Bool) :
    ofText? (String.ofList ((if negative then ['-'] else []) ++ chars)) =
      some (ofDecimal negative digits exponent) := by
  cases chars with
  | nil => exact absurd read (by simp [readDecimal?])
  | cons first rest =>
      have begins := isDigit_of_readDecimal? read
      have sign : readSign ((if negative then ['-'] else []) ++ first :: rest) =
          (negative, first :: rest) := by
        cases negative with
        | true => rfl
        | false =>
            obtain digit | rfl := begins
            · exact readSign_of_isDigit digit rest
            · rfl
      have notName := fun name => @name_ne_of_isDigit first begins rest name
      simp only [ofText?, String.toList_ofList, sign]
      rw [if_neg, if_neg, read]
      · rfl
      · exact notName "nan" (by simp)
      · rintro (isName | isName)
        · exact notName "inf" (by simp) isName
        · exact notName "infinity" (by simp) isName

/-- A number in tenths rounds as it does in units. -/
theorem RoundsTo.mul_right
    {numerator denominator : Nat}
    (rounds : RoundsTo number numerator denominator)
    {factor : Nat}
    (factorPositive : 0 < factor) :
    RoundsTo number (numerator * factor) (denominator * factor) := by
  obtain ⟨positive, notBelow, notAbove, inside⟩ := rounds
  have moved : numerator * factor * 2 ^ 151 = numerator * 2 ^ 151 * factor :=
    Nat.mul_right_comm numerator factor (2 ^ 151)
  constructor
  · exact Nat.mul_pos positive factorPositive
  · rw [moved, ← Nat.mul_assoc]
    exact Nat.mul_le_mul_right factor notBelow
  · rw [moved, ← Nat.mul_assoc]
    exact Nat.mul_le_mul_right factor notAbove
  · intro odd
    rw [moved, ← Nat.mul_assoc, ← Nat.mul_assoc]
    exact ⟨Nat.mul_lt_mul_of_pos_right (inside odd).1 factorPositive,
      Nat.mul_lt_mul_of_pos_right (inside odd).2 factorPositive⟩

/-- A decimal of the same value lies in the same rounding interval. -/
theorem SameValue.contains
    {decimal : Decimal}
    {digits : Nat}
    (same : SameValue decimal digits exponent)
    (inside : number.roundingInterval.contains decimal.exponent decimal.digits = true) :
    number.roundingInterval.contains exponent digits = true := by
  obtain ⟨rfl, rfl⟩ | ⟨whole, rfl, rfl⟩ := same
  · exact inside
  · rw [contains_iff] at inside ⊢
    have tenths := inside.mul_right (show 0 < 10 by decide)
    rw [show (-decimal.exponent).toNat = 0 by omega] at tenths
    simpa [Nat.pow_succ, Nat.mul_assoc] using tenths

/-- The exponent of the first digit of a number is small. -/
theorem Ordinary.firstExponent_lt (ordinary : number.Ordinary) :
    (number.shortest.exponent + (Nat.toDigits 10 number.shortest.digits).length - 1).natAbs <
      exponentLimit := by
  obtain ⟨inside, notBelow, notAbove⟩ := ordinary.contains_shortest
  rw [contains_iff] at inside
  have digits : number.shortest.digits < 10 ^ 200 :=
    calc number.shortest.digits
        ≤ number.shortest.digits * 10 ^ number.shortest.exponent.toNat :=
          Nat.le_mul_of_pos_right _ (Nat.pow_pos (by decide))
      _ ≤ number.shortest.digits * 10 ^ number.shortest.exponent.toNat * 2 ^ 151 :=
          Nat.le_mul_of_pos_right _ (Nat.two_pow_pos 151)
      _ ≤ number.roundingInterval.high * 10 ^ (-number.shortest.exponent).toNat :=
          inside.notAbove
      _ ≤ number.roundingInterval.high * 10 ^ 100 :=
          Nat.mul_le_mul_left _ (Nat.pow_le_pow_right (by decide) (by omega))
      _ < 2 ^ 279 * 10 ^ 100 := Nat.mul_lt_mul_of_pos_right ordinary.high_lt (by decide)
      _ < 10 ^ 200 := by decide +kernel
  have count := (Nat.length_toDigits_le_iff (n := number.shortest.digits) (b := 10) (k := 200)
    (by decide) (by decide)).mpr digits
  unfold exponentLimit
  omega

/-! ## Blanks -/

theorem isBlank_of_isDigit (isDigit : char.isDigit = true) :
    Text.isBlank char = false := by
  have range := toNat_of_isDigit isDigit
  simp [Text.isBlank, Text.blankRanges]
  omega

/-- A sign is no blank. -/
theorem isBlank_of_readSign
    (notBlank : ∀ char ∈ (readSign chars).2, Text.isBlank char = false) :
    ∀ char ∈ chars, Text.isBlank char = false := by
  unfold readSign at notBlank
  split at notBlank
  · exact List.forall_mem_cons.mpr ⟨by decide, notBlank⟩
  · exact List.forall_mem_cons.mpr ⟨by decide, notBlank⟩
  · exact notBlank

theorem isBlank_of_readExponent?
    (read : readExponent? chars = some exponent) :
    ∀ char ∈ chars, Text.isBlank char = false := by
  unfold readExponent? at read
  split at read
  · exact List.forall_mem_nil _
  · rename_i mark rest
    split at read
    · rename_i isMark
      simp only at read
      split at read
      · cases read
      · rename_i allDigits
        have digits : ∀ char ∈ (readSign rest).2, char.isDigit = true := by
          simpa using (not_or.mp allDigits).2
        refine List.forall_mem_cons.mpr ⟨?_, isBlank_of_readSign fun char member =>
          isBlank_of_isDigit (digits char member)⟩
        obtain rfl | rfl := isMark <;> decide
    · cases read

theorem isBlank_takeWhile_isDigit (chars : List Char) :
    ∀ char ∈ chars.takeWhile Char.isDigit, Text.isBlank char = false :=
  fun char member => isBlank_of_isDigit (List.all_eq_true.mp List.all_takeWhile char member)

/-- There are no blanks in a text that is read as a decimal. -/
theorem isBlank_of_readDecimal?
    {decimal : Nat × Int}
    (read : readDecimal? chars = some decimal) :
    ∀ char ∈ chars, Text.isBlank char = false := by
  simp only [readDecimal?, List.span_eq_takeWhile_dropWhile] at read
  rw [← List.takeWhile_append_dropWhile (p := Char.isDigit) (l := chars)]
  refine List.forall_mem_append.mpr ⟨isBlank_takeWhile_isDigit chars, ?_⟩
  split at read
  · rename_i afterPoint isPoint
    obtain ⟨-, read⟩ := Option.ite_none_left_eq_some.mp read
    obtain ⟨exponent, isExponent, -⟩ := Option.map_eq_some_iff.mp read
    rw [isPoint, ← List.takeWhile_append_dropWhile (p := Char.isDigit) (l := afterPoint)]
    exact List.forall_mem_cons.mpr ⟨by decide, List.forall_mem_append.mpr
      ⟨isBlank_takeWhile_isDigit afterPoint, isBlank_of_readExponent? isExponent⟩⟩
  · obtain ⟨-, read⟩ := Option.ite_none_left_eq_some.mp read
    obtain ⟨exponent, isExponent, -⟩ := Option.map_eq_some_iff.mp read
    exact isBlank_of_readExponent? isExponent

/-! ## Texts of numbers -/

/-- A number without fraction bits is given by its sign and its exponent. -/
theorem ofFields_eq
    (fraction : number.fractionField = 0) :
    ofFields number.isNegative number.exponentField 0 = number := by
  obtain ⟨bits⟩ := number
  have bound := bits.toNat_lt
  simp only [fractionField] at fraction
  simp only [ofFields, isNegative, exponentField, Binary32.mk.injEq, decide_eq_true_eq]
  apply UInt32.toNat_inj.mp
  rw [UInt32.toNat_ofNat']
  split <;> omega

/-- Whether a text has no blanks and is read as a number. -/
def Spells (text : String) (number : Binary32) : Prop :=
  (∀ char ∈ text.toList, Text.isBlank char = false) ∧ ofText? text = some number

theorem spells_infinity (negative : Bool) :
    Spells ((if negative then "-" else "") ++ "inf") (infinity negative) := by
  have letters : ((if negative then "-" else "") ++ "inf").toList.all
      (fun char => !Text.isBlank char) = true := by
    cases negative <;> decide +kernel
  constructor
  · intro char member
    simpa using List.all_eq_true.mp letters char member
  · cases negative <;> decide +kernel

/-- A text that is read as a decimal, with a minus in front of it or without. -/
theorem spells_of_readDecimal?
    {text : String}
    {digits : Nat}
    (read : readDecimal? text.toList = some (digits, exponent))
    (negative : Bool) :
    Spells ((if negative then "-" else "") ++ text) (ofDecimal negative digits exponent) := by
  have notBlank := isBlank_of_readDecimal? read
  have reads := ofText?_of_readDecimal? read negative
  cases negative with
  | true =>
      have joined : String.ofList ('-' :: text.toList) = "-" ++ text := by
        apply String.toList_inj.mp
        simp
      refine ⟨?_, ?_⟩
      · rw [if_pos rfl, ← joined, String.toList_ofList]
        exact List.forall_mem_cons.mpr ⟨by decide, notBlank⟩
      · rwa [if_pos rfl, List.singleton_append, joined] at reads
  | false =>
      rw [if_neg Bool.false_ne_true, String.empty_append]
      refine ⟨notBlank, ?_⟩
      rwa [if_neg Bool.false_ne_true, List.nil_append, String.ofList_toList] at reads

/-- The text of a number other than NaN has no blanks and is read as that number. -/
theorem spells_text
    (notNaN : number.isNaN = false) :
    Spells number.text number := by
  unfold text NumberFormat.write
  simp only [notNaN, Bool.false_eq_true, if_false]
  split
  · rename_i infinite
    simp only [isInfinite, Bool.and_eq_true, beq_iff_eq] at infinite
    have spelled := spells_infinity number.isNegative
    rwa [infinity, ← infinite.1, ofFields_eq infinite.2] at spelled
  · rename_i finite
    split
    · rename_i zero
      have fields : number.exponentField = 0 ∧ number.fractionField = 0 := by
        unfold significand at zero
        split at zero
        · exact ⟨by assumption, zero⟩
        · omega
      have read : readDecimal? "0.0".toList = some (0, -1) := by decide +kernel
      have spelled := spells_of_readDecimal? read number.isNegative
      have same := ofFields_eq fields.2
      rw [fields.1] at same
      rwa [ofDecimal, if_pos rfl, same] at spelled
    · rename_i notZero
      have ordinary : number.Ordinary := by
        refine ⟨?_, Nat.pos_of_ne_zero notZero⟩
        have small : number.exponentField < 2 ^ 8 := Nat.mod_lt _ (by decide)
        have notLast : number.exponentField ≠ 255 := by
          intro last
          simp [isNaN, last] at notNaN
          simp [isInfinite, last, notNaN] at finite
        omega
      obtain ⟨inside, -⟩ := ordinary.contains_shortest
      obtain ⟨digits, exponent, read, same⟩ := readDecimal?_layout ordinary.firstExponent_lt
      have spelled := spells_of_readDecimal? read number.isNegative
      rwa [ofDecimal_eq ordinary (same.contains inside)] at spelled

end Binary32

/-- A number is read back from a listing. -/
theorem Listing.readFloat_text
    {number : Binary32}
    (notNaN : number.isNaN = false) :
    readFloat number.text = .ok number := by
  obtain ⟨notBlank, reads⟩ := Binary32.spells_text notNaN
  have trimmed := Text.trim_ofList (Text.unpadded_of_forall notBlank)
  rw [String.ofList_toList] at trimmed
  simp only [readFloat, trimmed, reads]

end ScriptBytecode
