import Mathlib.Data.Nat.Digits.Defs
import Mathlib.Tactic.Ring
import ScriptBytecode.Proofs.IntegerText

/-!
# The grammar of integers

A plain integer is a minus sign if it is negative, the mark of a base if it is not decimal, and
digits of a magnitude of 63 bits, with blanks around all of this.  Every plain integer is read as
its value.  The integers that are read and are not plain have a sign of their own directly before
the digits, a plus sign or a second minus sign for instance.
-/

namespace ScriptBytecode
namespace Text

/-! ## Blanks around a text -/

/-- A text that consists of some characters and of blanks around them. -/
def Pads (text : String) (chars : List Char) : Prop :=
  ∃ before after, text.toList = before ++ chars ++ after ∧
    (∀ char ∈ before, isBlank char = true) ∧ ∀ char ∈ after, isBlank char = true

theorem isBlank_of_mem_takeWhile
    {chars : List Char} {char : Char}
    (member : char ∈ chars.takeWhile isBlank) :
    isBlank char = true :=
  List.all_eq_true.mp List.all_takeWhile char member

/-- Removing the blanks around a text removes nothing else. -/
theorem pads_trim (text : String) : Pads text (trim text).toList := by
  let rest := trimStart text.toList
  have start : text.toList = text.toList.takeWhile isBlank ++ rest :=
    List.takeWhile_append_dropWhile.symm
  have finish : rest = trimEnd rest ++ (rest.reverse.takeWhile isBlank).reverse := by
    rw [trimEnd, ← List.reverse_append, List.takeWhile_append_dropWhile, List.reverse_reverse]
  refine ⟨text.toList.takeWhile isBlank, (rest.reverse.takeWhile isBlank).reverse, ?_, ?_, ?_⟩
  · rw [trim, String.toList_ofList, List.append_assoc, ← finish]
    exact start
  · intro char member
    exact isBlank_of_mem_takeWhile member
  · intro char member
    exact isBlank_of_mem_takeWhile (List.mem_reverse.mp member)

/-- Characters without blanks around them are found again in a text that pads them. -/
theorem Pads.toList_trim
    {text : String} {chars : List Char}
    (pads : Pads text chars)
    (notEmpty : chars ≠ [])
    (unpadded : Unpadded chars) :
    (trim text).toList = chars := by
  obtain ⟨before, after, isText, blankBefore, blankAfter⟩ := pads
  have start : trimStart text.toList = chars ++ after := by
    rw [trimStart, isText, List.append_assoc, List.dropWhile_append_of_pos blankBefore]
    obtain ⟨first, rest, rfl⟩ := List.exists_cons_of_ne_nil notEmpty
    exact dropWhile_isBlank unpadded.1
  have finish : trimEnd (chars ++ after) = chars := by
    have blankReversed : ∀ char ∈ after.reverse, isBlank char = true := fun char member =>
      blankAfter char (List.mem_reverse.mp member)
    have notBlank : ∀ char, chars.reverse.head? = some char → isBlank char = false := by
      rw [List.head?_reverse]
      exact unpadded.2
    rw [trimEnd, List.reverse_append, List.dropWhile_append_of_pos blankReversed,
      dropWhile_isBlank notBlank, List.reverse_reverse]
  rw [trim, String.toList_ofList, start, finish]

/-! ## Digits by their place -/

/-- The digits of base sixteen in the order of their values.  Those of base ten come first. -/
def digitOrder : List Char :=
  ['0', '1', '2', '3', '4', '5', '6', '7', '8', '9', 'a', 'b', 'c', 'd', 'e', 'f']

/-- The place of a character, in either case, among the digits; sixteen if it is none of them. -/
def digitPlace (char : Char) : Nat :=
  digitOrder.idxOf char.toLower

theorem digitPlace_of_large {char : Char} (large : 128 ≤ char.toNat) : digitPlace char = 16 := by
  have lower : char.toLower = char := by
    unfold Char.toLower
    apply dif_neg
    rintro ⟨-, notAbove⟩
    have : char.toNat ≤ 90 := UInt32.le_iff_toNat_le.mp notAbove
    omega
  have small : ∀ digit ∈ digitOrder, digit.toNat < 128 := by simp [digitOrder]
  have notDigit : char ∉ digitOrder := by
    intro member
    have := small char member
    omega
  rw [digitPlace, lower]
  exact List.idxOf_eq_length notDigit

theorem digitValue?_of_large {char : Char} (large : 128 ≤ char.toNat) :
    digitValue? char = none := by
  have notBelow : ∀ last : Char, last.toNat < 128 → ¬ char ≤ last := by
    intro last small atMost
    have : char.toNat ≤ last.toNat := UInt32.le_iff_toNat_le.mp atMost
    omega
  unfold digitValue?
  rw [if_neg (fun isDigit => notBelow '9' (by decide) isDigit.2),
    if_neg (fun isDigit => notBelow 'f' (by decide) isDigit.2),
    if_neg (fun isDigit => notBelow 'F' (by decide) isDigit.2)]

/-- The digits are the characters that have a place among them, and these are neither blanks nor
signs nor marks of a base. -/
theorem digitPlace_spec (char : Char) :
    if digitPlace char < 16 then
      digitValue? char = some (digitPlace char) ∧ isBlank char = false ∧
        char ∉ ['-', '+', 'x', 'X']
    else digitValue? char = none := by
  -- Only the first 128 characters need a look one by one.
  have table : ∀ code < 128, if digitPlace (Char.ofNat code) < 16 then
      digitValue? (Char.ofNat code) = some (digitPlace (Char.ofNat code)) ∧
        isBlank (Char.ofNat code) = false ∧ Char.ofNat code ∉ ['-', '+', 'x', 'X']
      else digitValue? (Char.ofNat code) = none := by decide
  by_cases small : char.toNat < 128
  · have spec := table char.toNat small
    rwa [Char.ofNat_toNat] at spec
  · have large : 128 ≤ char.toNat := by omega
    rw [digitPlace_of_large large, if_neg (by omega)]
    exact digitValue?_of_large large

/-- One or more digits of a base. -/
structure DigitRun (base : Nat) (chars : List Char) : Prop where
  notEmpty : chars ≠ []
  digit : ∀ char ∈ chars, digitPlace char < base

/-- The number that digits of a base stand for, the most significant digit first. -/
def magnitude (base : Nat) (chars : List Char) : Nat :=
  Nat.ofDigits base (chars.reverse.map digitPlace)

theorem magnitude_cons
    (base : Nat)
    (char : Char)
    (rest : List Char) :
    magnitude base (char :: rest) =
      magnitude base rest + base ^ rest.length * digitPlace char := by
  rw [magnitude, List.reverse_cons, List.map_append, Nat.ofDigits_append, List.length_map,
    List.length_reverse, List.map_singleton, Nat.ofDigits_singleton, magnitude]

/-- Digits are read on after a value by shifting the value past them. -/
theorem continueDigits?_eq_some_iff
    {base : Nat}
    (base_le : base ≤ 16)
    {value number : Nat} {chars : List Char} :
    continueDigits? base value chars = some number ↔
      (∀ char ∈ chars, digitPlace char < base) ∧
        number = base ^ chars.length * value + magnitude base chars := by
  induction chars generalizing value with
  | nil => simp [continueDigits?, magnitude, eq_comm]
  | cons char rest ih =>
      have spec := digitPlace_spec char
      rw [continueDigits?, List.forall_mem_cons, magnitude_cons, List.length_cons]
      by_cases isDigit : digitPlace char < base
      · rw [if_pos (by omega)] at spec
        simp only [spec.1, isDigit, if_true, true_and, ih]
        have shifted : base ^ rest.length * (base * value + digitPlace char) +
            magnitude base rest = base ^ (rest.length + 1) * value +
              (magnitude base rest + base ^ rest.length * digitPlace char) := by ring
        rw [shifted]
      · have refused : digitValue? char = none ∨ digitValue? char = some (digitPlace char) := by
          split at spec
          · exact .inr spec.1
          · exact .inl spec
        rcases refused with noValue | hasValue
        · simp [noValue, isDigit]
        · simp [hasValue, isDigit]

theorem digits?_eq_some_iff
    {base : Nat}
    (base_le : base ≤ 16)
    {number : Nat} {chars : List Char} :
    digits? base chars = some number ↔
      DigitRun base chars ∧ number = magnitude base chars := by
  cases chars with
  | nil =>
      constructor
      · intro isNumber
        simp [digits?] at isNumber
      · rintro ⟨isRun, -⟩
        exact absurd rfl isRun.notEmpty
  | cons char rest =>
      rw [digits?_eq_continueDigits? (by simp), continueDigits?_eq_some_iff base_le, Nat.mul_zero,
        Nat.zero_add]
      exact and_congr_left' ⟨fun digit => ⟨by simp, digit⟩, DigitRun.digit⟩

/-- A text that begins with no sign. -/
def Unsigned (chars : List Char) : Prop :=
  chars.head? ≠ some '-' ∧ chars.head? ≠ some '+'

namespace DigitRun

variable {base : Nat} {digits : List Char}

theorem spec
    (isRun : DigitRun base digits)
    (base_le : base ≤ 16)
    {char : Char}
    (member : char ∈ digits) :
    isBlank char = false ∧ char ∉ ['-', '+', 'x', 'X'] := by
  have ofPlace := digitPlace_spec char
  rw [if_pos (Nat.lt_of_lt_of_le (isRun.digit char member) base_le)] at ofPlace
  exact ofPlace.2

theorem not_mem (isRun : DigitRun base digits) (base_le : base ≤ 16) :
    ∀ mark ∈ ['-', '+', 'x', 'X'], mark ∉ digits :=
  fun _ isMark member => (isRun.spec base_le member).2 isMark

theorem unsigned (isRun : DigitRun base digits) (base_le : base ≤ 16) : Unsigned digits := by
  constructor
  · intro isHead
    exact isRun.not_mem base_le '-' (by simp) (List.mem_of_mem_head? isHead)
  · intro isHead
    exact isRun.not_mem base_le '+' (by simp) (List.mem_of_mem_head? isHead)

end DigitRun

/-! ## Numerals -/

/-- The mark of the base of a numeral. -/
inductive BaseMark
  | decimal
  | lowerHex
  | upperHex

namespace BaseMark

/-- The base that a mark stands for. -/
def base : BaseMark → Nat
  | .decimal => 10
  | .lowerHex | .upperHex => 16

/-- The characters of a mark. -/
def chars : BaseMark → List Char
  | .decimal => []
  | .lowerHex => ['0', 'x']
  | .upperHex => ['0', 'X']

theorem base_le (mark : BaseMark) : mark.base ≤ 16 := by
  cases mark <;> decide

end BaseMark

/-- What stands directly before the digits of a numeral. -/
inductive OwnSign
  | none
  | plus
  | minus

namespace OwnSign

/-- The characters of a sign. -/
def chars : OwnSign → List Char
  | .none => []
  | .plus => ['+']
  | .minus => ['-']

/-- A magnitude with a sign. -/
def apply (sign : OwnSign) (magnitude : Nat) : Int :=
  match sign with
  | .none | .plus => magnitude
  | .minus => -magnitude

end OwnSign

/-- A sign and what follows it are told apart by the first character. -/
theorem exists_ownSign (chars : List Char) :
    ∃ sign digits, chars = OwnSign.chars sign ++ digits ∧ (sign = .none → Unsigned digits) := by
  by_cases isMinus : chars.head? = some '-'
  · obtain ⟨digits, rfl⟩ := List.head?_eq_some_iff.mp isMinus
    exact ⟨.minus, digits, rfl, by simp⟩
  · by_cases isPlus : chars.head? = some '+'
    · obtain ⟨digits, rfl⟩ := List.head?_eq_some_iff.mp isPlus
      exact ⟨.plus, digits, rfl, by simp⟩
    · exact ⟨.none, chars, rfl, fun _ => ⟨isMinus, isPlus⟩⟩

theorem ownSign_unique
    {sign other : OwnSign} {digits otherDigits : List Char}
    (unsigned : Unsigned digits)
    (otherUnsigned : Unsigned otherDigits)
    (same : sign.chars ++ digits = other.chars ++ otherDigits) :
    sign = other := by
  have heads := congrArg List.head? same
  cases sign with
  | none =>
      cases other with
      | none => rfl
      | plus => exact absurd heads unsigned.2
      | minus => exact absurd heads unsigned.1
  | plus =>
      cases other with
      | none => exact absurd heads.symm otherUnsigned.2
      | plus => rfl
      | minus => simp [OwnSign.chars] at heads
  | minus =>
      cases other with
      | none => exact absurd heads.symm otherUnsigned.1
      | plus => simp [OwnSign.chars] at heads
      | minus => rfl

/-- An integer of 64 bits with a sign. -/
def Fits64 (value : Int) : Prop :=
  -2 ^ 63 ≤ value ∧ value < 2 ^ 63

theorem signed64?_sign_eq_some_iff
    {base : Nat} {sign : OwnSign} {digits : List Char}
    (unsigned : sign = .none → Unsigned digits)
    {value : Int} :
    signed64? base (sign.chars ++ digits) = some value ↔
      (∃ number, digits? base digits = some number ∧ sign.apply number = value) ∧
        Fits64 value := by
  have inRange : (-0x8000000000000000 ≤ value ∧ value < 0x8000000000000000) ↔ Fits64 value := by
    unfold Fits64
    omega
  cases sign with
  | none =>
      have notSigned := unsigned rfl
      unfold signed64? OwnSign.chars
      rw [List.nil_append]
      split
      · exact absurd rfl notSigned.1
      · exact absurd rfl notSigned.2
      · simp only [Option.filter_eq_some_iff, Option.map_eq_some_iff, decide_eq_true_eq, inRange]
        rfl
  | plus =>
      simp only [signed64?, OwnSign.chars, List.singleton_append, Option.filter_eq_some_iff,
        Option.map_eq_some_iff, decide_eq_true_eq, inRange]
      rfl
  | minus =>
      simp [signed64?, OwnSign.chars, OwnSign.apply, Option.filter_eq_some_iff,
        Option.bind_eq_some_iff, inRange]

/-- A value of 64 bits is read from digits with at most one sign before them. -/
theorem signed64?_eq_some_iff
    {base : Nat}
    (base_le : base ≤ 16)
    {chars : List Char} {value : Int} :
    signed64? base chars = some value ↔
      ∃ sign digits, chars = OwnSign.chars sign ++ digits ∧ DigitRun base digits ∧
        sign.apply (magnitude base digits) = value ∧ Fits64 value := by
  constructor
  · intro isValue
    obtain ⟨sign, digits, rfl, unsigned⟩ := exists_ownSign chars
    obtain ⟨⟨number, isNumber, isSigned⟩, fits⟩ := (signed64?_sign_eq_some_iff unsigned).mp isValue
    obtain ⟨isRun, rfl⟩ := (digits?_eq_some_iff base_le).mp isNumber
    exact ⟨sign, digits, rfl, isRun, isSigned, fits⟩
  · rintro ⟨sign, digits, rfl, isRun, isSigned, fits⟩
    apply (signed64?_sign_eq_some_iff fun _ => isRun.unsigned base_le).mpr
    exact ⟨⟨_, (digits?_eq_some_iff base_le).mpr ⟨isRun, rfl⟩, isSigned⟩, fits⟩

/-- Every text is the mark of a base and a rest. -/
theorem exists_baseMark (chars : List Char) :
    ∃ mark rest, chars = BaseMark.chars mark ++ rest ∧ splitBase chars = (mark.base, rest) := by
  unfold splitBase
  split
  · exact ⟨.lowerHex, _, rfl, rfl⟩
  · exact ⟨.upperHex, _, rfl, rfl⟩
  · exact ⟨.decimal, _, rfl, rfl⟩

/-- The mark of a base is split off from the sign and the digits behind it. -/
theorem splitBase_chars
    {mark : BaseMark} {digits : List Char}
    (isRun : DigitRun mark.base digits)
    (sign : OwnSign) :
    splitBase (mark.chars ++ (sign.chars ++ digits)) = (mark.base, sign.chars ++ digits) := by
  cases mark with
  | lowerHex => rfl
  | upperHex => rfl
  | decimal =>
      have noMark : ∀ letter ∈ ['x', 'X'], letter ∉ sign.chars ++ digits := by
        intro letter isLetter member
        rcases List.mem_append.mp member with inSign | inDigits
        · cases sign <;> simp_all [OwnSign.chars]
        · exact isRun.not_mem (BaseMark.base_le _) letter (by simp_all) inDigits
      unfold splitBase BaseMark.chars
      rw [List.nil_append]
      split
      · rename_i starts
        exact absurd (by simp [starts]) (noMark 'x' (by simp))
      · rename_i starts
        exact absurd (by simp [starts]) (noMark 'X' (by simp))
      · rfl

theorem numeral?_eq_some_iff
    {chars : List Char} {value : Int} :
    numeral? chars = some value ↔
      ∃ mark sign digits, chars = BaseMark.chars mark ++ (OwnSign.chars sign ++ digits) ∧
        DigitRun mark.base digits ∧ sign.apply (magnitude mark.base digits) = value ∧
        Fits64 value := by
  unfold numeral?
  constructor
  · intro isValue
    obtain ⟨mark, rest, rfl, splits⟩ := exists_baseMark chars
    rw [splits] at isValue
    obtain ⟨sign, digits, rfl, isRun, isSigned, fits⟩ :=
      (signed64?_eq_some_iff mark.base_le).mp isValue
    exact ⟨mark, sign, digits, rfl, isRun, isSigned, fits⟩
  · rintro ⟨mark, sign, digits, rfl, isRun, isSigned, fits⟩
    rw [splitBase_chars isRun]
    exact (signed64?_eq_some_iff mark.base_le).mpr ⟨sign, digits, rfl, isRun, isSigned, fits⟩

/-! ## Written integers -/

/-- An integer as it is written: a minus sign or none, the mark of a base, a sign of its own or
none, and digits. -/
structure Numeral where
  negative : Bool
  mark : BaseMark
  sign : OwnSign
  digits : List Char
  isRun : DigitRun mark.base digits
  /-- A minus sign at the beginning is not the numeral's own. -/
  firstMinus : negative = false → mark = .decimal → sign ≠ .minus

namespace Numeral

/-- What follows the minus sign before all the rest. -/
def body (numeral : Numeral) : List Char :=
  numeral.mark.chars ++ (numeral.sign.chars ++ numeral.digits)

/-- The characters of a written integer. -/
def chars (numeral : Numeral) : List Char :=
  (if numeral.negative then ['-'] else []) ++ numeral.body

/-- The value of the digits with their own sign. -/
def ownValue (numeral : Numeral) : Int :=
  numeral.sign.apply (magnitude numeral.mark.base numeral.digits)

/-- The value of a written integer. -/
def value (numeral : Numeral) : Int :=
  if numeral.negative then negate64 numeral.ownValue else numeral.ownValue

/-- Without a minus sign before all the rest there is none at the beginning. -/
theorem head?_body (numeral : Numeral) (notNegative : numeral.negative = false) :
    numeral.body.head? ≠ some '-' := by
  have unsigned := numeral.isRun.unsigned numeral.mark.base_le
  have firstMinus := numeral.firstMinus notNegative
  unfold body
  cases isMark : numeral.mark with
  | lowerHex => simp [BaseMark.chars]
  | upperHex => simp [BaseMark.chars]
  | decimal =>
      cases isSign : numeral.sign with
      | none => simpa [BaseMark.chars, OwnSign.chars] using unsigned.1
      | plus => simp [BaseMark.chars, OwnSign.chars]
      | minus => exact absurd isSign (firstMinus isMark)

theorem numeral?_body (numeral : Numeral) (fits : Fits64 numeral.ownValue) :
    numeral? numeral.body = some numeral.ownValue :=
  numeral?_eq_some_iff.mpr ⟨_, _, _, rfl, numeral.isRun, rfl, fits⟩

theorem chars_ne_nil (numeral : Numeral) : numeral.chars ≠ [] := by
  simp [chars, body, numeral.isRun.notEmpty]

theorem unpadded (numeral : Numeral) : Unpadded numeral.chars := by
  have minus : isBlank '-' = false := by decide
  have plus : isBlank '+' = false := by decide
  have marks : isBlank '0' = false ∧ isBlank 'x' = false ∧ isBlank 'X' = false := by decide
  have ofMark : ∀ char ∈ numeral.mark.chars, isBlank char = false := by
    cases numeral.mark <;> simp [BaseMark.chars, marks]
  have ofSign : ∀ char ∈ numeral.sign.chars, isBlank char = false := by
    cases numeral.sign <;> simp [OwnSign.chars, minus, plus]
  have ofMinus : ∀ char ∈ if numeral.negative then ['-'] else [], isBlank char = false := by
    cases numeral.negative <;> simp [minus]
  apply unpadded_of_forall
  unfold chars body
  simp only [List.forall_mem_append]
  exact ⟨ofMinus, ofMark, ofSign, fun _ member =>
    (numeral.isRun.spec numeral.mark.base_le member).1⟩

/-- A written integer is read as its value if its digits with their own sign are one of 64 bits. -/
theorem integer?_of_pads
    {numeral : Numeral} {text : String}
    (pads : Pads text numeral.chars)
    (fits : Fits64 numeral.ownValue) :
    integer? text = some numeral.value := by
  have isBody := numeral.numeral?_body fits
  unfold integer? value
  rw [pads.toList_trim numeral.chars_ne_nil numeral.unpadded, chars]
  cases isNegative : numeral.negative with
  | true => simp [isBody]
  | false =>
      have notMinus := numeral.head?_body isNegative
      simp only [Bool.false_eq_true, if_false, List.nil_append]
      split
      · rename_i starts
        exact absurd (by simp [starts]) notMinus
      · exact isBody

/-- What is read as an integer is written as one. -/
theorem exists_of_integer?
    {text : String} {value : Int}
    (isValue : integer? text = some value) :
    ∃ numeral : Numeral, Pads text numeral.chars ∧ Fits64 numeral.ownValue ∧
      numeral.value = value := by
  have pads := pads_trim text
  unfold integer? at isValue
  split at isValue
  · rename_i rest starts
    obtain ⟨own, isOwn, rfl⟩ := Option.map_eq_some_iff.mp isValue
    obtain ⟨mark, sign, digits, rfl, isRun, rfl, fits⟩ := numeral?_eq_some_iff.mp isOwn
    rw [starts] at pads
    exact ⟨⟨true, mark, sign, digits, isRun, by simp⟩, pads, fits, rfl⟩
  · rename_i notMinus
    obtain ⟨mark, sign, digits, isText, isRun, rfl, fits⟩ := numeral?_eq_some_iff.mp isValue
    have firstMinus : mark = .decimal → sign ≠ .minus := by
      rintro rfl rfl
      exact notMinus _ isText
    rw [isText] at pads
    exact ⟨⟨false, mark, sign, digits, isRun, fun _ => firstMinus⟩, pads, fits, rfl⟩

/-- What a text is made of decides the sign that the digits have of their own. -/
theorem sign_unique
    {numeral other : Numeral} {text : String}
    (pads : Pads text numeral.chars)
    (otherPads : Pads text other.chars) :
    numeral.sign = other.sign := by
  have sameChars : numeral.chars = other.chars := by
    rw [← pads.toList_trim numeral.chars_ne_nil numeral.unpadded,
      ← otherPads.toList_trim other.chars_ne_nil other.unpadded]
  -- The first character tells whether a minus sign stands before all the rest.
  have sameBody : numeral.body = other.body := by
    unfold chars at sameChars
    cases isNegative : numeral.negative <;> cases otherNegative : other.negative <;>
      simp only [isNegative, otherNegative, if_true, Bool.false_eq_true, if_false,
        List.nil_append, List.singleton_append] at sameChars
    · exact sameChars
    · exact absurd (by simp [sameChars]) (numeral.head?_body isNegative)
    · exact absurd (by simp [← sameChars]) (other.head?_body otherNegative)
    · exact List.tail_eq_of_cons_eq sameChars
  have sameSplit := congrArg splitBase sameBody
  unfold body at sameSplit
  rw [splitBase_chars numeral.isRun, splitBase_chars other.isRun] at sameSplit
  exact ownSign_unique (numeral.isRun.unsigned numeral.mark.base_le)
    (other.isRun.unsigned other.mark.base_le) (Prod.mk.inj sameSplit).2

end Numeral

/-- A text that is, without the blanks around it, a plain integer: a minus sign or none, the mark of
a base, and digits of the base with a magnitude of 63 bits. -/
def PlainInteger (text : String) (value : Int) : Prop :=
  ∃ (negative : Bool) (mark : BaseMark) (digits : List Char),
    Pads text ((if negative then ['-'] else []) ++ (mark.chars ++ digits)) ∧
    DigitRun mark.base digits ∧ magnitude mark.base digits ≤ 2 ^ 63 - 1 ∧
    value = if negative then -(magnitude mark.base digits : Int) else magnitude mark.base digits

/-- A text that is, without the blanks around it, an integer with a sign directly before the digits
that is not a minus sign at the beginning. -/
def SelfSigned (text : String) (value : Int) : Prop :=
  ∃ numeral : Numeral, numeral.sign ≠ .none ∧ Pads text numeral.chars ∧
    Fits64 numeral.ownValue ∧ numeral.value = value

/-- The plain integers are the written ones without a sign of their own.  Negation does not leave
the range of 64 bits for them. -/
theorem plainInteger_iff
    {text : String} {value : Int} :
    PlainInteger text value ↔
      ∃ numeral : Numeral, numeral.sign = .none ∧ Pads text numeral.chars ∧
        Fits64 numeral.ownValue ∧ numeral.value = value := by
  constructor
  · rintro ⟨negative, mark, digits, pads, isRun, small, rfl⟩
    refine ⟨⟨negative, mark, .none, digits, isRun, by simp⟩, rfl, pads, ?_, ?_⟩
    · simp only [Fits64, Numeral.ownValue, OwnSign.apply]
      omega
    · simp only [Numeral.value, Numeral.ownValue, OwnSign.apply]
      rw [negate64_of_abs_lt (by omega) (by omega)]
  · rintro ⟨⟨negative, mark, sign, digits, isRun, firstMinus⟩, rfl, pads, fits, rfl⟩
    simp only [Fits64, Numeral.ownValue, OwnSign.apply] at fits
    refine ⟨negative, mark, digits, pads, isRun, by omega, ?_⟩
    simp only [Numeral.value, Numeral.ownValue, OwnSign.apply]
    rw [negate64_of_abs_lt (by omega) (by omega)]

theorem not_selfSigned_of_plainInteger
    {text : String} {value : Int}
    (isPlain : PlainInteger text value)
    (other : Int) :
    ¬ SelfSigned text other := by
  rintro ⟨signed, hasSign, signedPads, -, -⟩
  obtain ⟨plain, noSign, plainPads, -, -⟩ := plainInteger_iff.mp isPlain
  exact hasSign ((Numeral.sign_unique signedPads plainPads).trans noSign)

theorem integer?_eq_some_iff
    {text : String} {value : Int} :
    integer? text = some value ↔ PlainInteger text value ∨ SelfSigned text value := by
  rw [plainInteger_iff]
  constructor
  · intro isValue
    obtain ⟨numeral, pads, fits, sameValue⟩ := Numeral.exists_of_integer? isValue
    by_cases noSign : numeral.sign = .none
    · exact .inl ⟨numeral, noSign, pads, fits, sameValue⟩
    · exact .inr ⟨numeral, noSign, pads, fits, sameValue⟩
  · rintro (⟨numeral, -, pads, fits, rfl⟩ | ⟨numeral, -, pads, fits, rfl⟩)
    · exact Numeral.integer?_of_pads pads fits
    · exact Numeral.integer?_of_pads pads fits

/-- A text is read as an integer exactly if it is a plain integer or has a sign of its own before
the digits, and the integers of a text are the plain ones exactly if it has no such sign. -/
theorem integer?_plain_or_selfSigned (text : String) :
    (∀ value, integer? text = some value ↔ PlainInteger text value ∨ SelfSigned text value) ∧
      ((∀ value, integer? text = some value ↔ PlainInteger text value) ↔
        ∀ value, ¬ SelfSigned text value) := by
  refine ⟨fun value => integer?_eq_some_iff, ?_, ?_⟩
  · intro onlyPlain value isSigned
    have isPlain := (onlyPlain value).mp (integer?_eq_some_iff.mpr (.inr isSigned))
    exact not_selfSigned_of_plainInteger isPlain value isSigned
  · intro noSign value
    rw [integer?_eq_some_iff, or_iff_left (noSign value)]

/-- Five after two minus signs. -/
def doubleMinus : Numeral where
  negative := true
  mark := .decimal
  sign := .minus
  digits := ['5']
  isRun := ⟨by simp, List.forall_mem_singleton.mpr (by decide)⟩
  firstMinus := by simp

/-- A second minus sign takes back the first one, and no plain integer has two. -/
theorem integer?_doubleMinus :
    integer? "--5" = some 5 ∧ ∀ value, ¬ PlainInteger "--5" value := by
  have pads : Pads "--5" doubleMinus.chars := ⟨[], [], by decide, by simp, by simp⟩
  have isSigned : SelfSigned "--5" 5 :=
    ⟨doubleMinus, by simp [doubleMinus], pads, ⟨by decide, by decide⟩, by decide⟩
  refine ⟨integer?_eq_some_iff.mpr (.inr isSigned), ?_⟩
  intro value isPlain
  exact not_selfSigned_of_plainInteger isPlain 5 isSigned

end Text
end ScriptBytecode
