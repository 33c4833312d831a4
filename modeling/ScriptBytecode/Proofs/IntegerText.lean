import Mathlib.Algebra.Group.Int.Defs
import Mathlib.Algebra.Group.Nat.Defs
import ScriptBytecode.Listing.Names
import ScriptBytecode.Listing.Operands

/-!
# Reading back integers

The text of an integer is read as that integer, in decimal with a sign if it needs one, and in
hexadecimal after the mark of the base.  The names that are made of addresses are no integers, and
different addresses have different names.
-/

namespace ScriptBytecode
namespace Text

variable {base : Nat} {chars : List Char} {number : Nat} {value : Int}

/-! ## Blanks -/

/-- A text that neither begins nor ends with a blank. -/
def Unpadded (chars : List Char) : Prop :=
  (∀ char, chars.head? = some char → isBlank char = false) ∧
    ∀ char, chars.getLast? = some char → isBlank char = false

theorem unpadded_of_forall
    (notBlank : ∀ char ∈ chars, isBlank char = false) :
    Unpadded chars :=
  ⟨fun char isHead => notBlank char (List.mem_of_mem_head? isHead),
    fun char isLast => notBlank char (List.mem_of_mem_getLast? isLast)⟩

theorem dropWhile_isBlank
    (notBlank : ∀ char, chars.head? = some char → isBlank char = false) :
    chars.dropWhile isBlank = chars := by
  cases chars with
  | nil => rfl
  | cons char rest => rw [List.dropWhile_cons_of_neg (by simp [notBlank char rfl])]

/-- A text without blanks around it is not changed by removing them. -/
theorem trim_ofList
    (unpadded : Unpadded chars) :
    trim (String.ofList chars) = String.ofList chars := by
  have reversed : chars.reverse.dropWhile isBlank = chars.reverse := by
    apply dropWhile_isBlank
    rw [List.head?_reverse]
    exact unpadded.2
  rw [trim, String.toList_ofList, trimStart, dropWhile_isBlank unpadded.1, trimEnd, reversed,
    List.reverse_reverse]

/-! ## Digits -/

theorem continueDigits?_append
    (base value : Nat)
    (left right : List Char) :
    continueDigits? base value (left ++ right) =
      (continueDigits? base value left).bind fun value => continueDigits? base value right := by
  induction left generalizing value with
  | nil => rfl
  | cons char rest ih =>
      simp only [List.cons_append, continueDigits?]
      cases digitValue? char with
      | none => rfl
      | some digit =>
          simp only
          split
          · exact ih _
          · rfl

/-- The digits of a number are those of a base. -/
theorem exists_digitChar_of_mem_toDigits
    (base_gt : 1 < base)
    {char : Char}
    (member : char ∈ Nat.toDigits base number) :
    ∃ digit < base, char = Nat.digitChar digit := by
  induction number using Nat.strongRecOn with
  | ind number ih =>
      rw [Nat.toDigits_eq_if base_gt] at member
      split at member
      · exact ⟨number, by assumption, List.mem_singleton.mp member⟩
      · rename_i large
        rcases List.mem_append.mp member with higher | last
        · exact ih _ (Nat.div_lt_self (by omega) base_gt) higher
        · exact ⟨number % base, Nat.mod_lt _ (by omega), List.mem_singleton.mp last⟩

/-- The digits of a number are read as that number, however the single digits are written. -/
theorem continueDigits?_toDigits
    (base_gt : 1 < base)
    {written : Char → Char}
    (reads : ∀ digit < base, digitValue? (written (Nat.digitChar digit)) = some digit)
    (number : Nat) :
    continueDigits? base 0 ((Nat.toDigits base number).map written) = some number := by
  induction number using Nat.strongRecOn with
  | ind number ih =>
      rw [Nat.toDigits_eq_if base_gt]
      split
      · rename_i small
        simp [continueDigits?, reads number small, small]
      · rename_i large
        have last : number % base < base := Nat.mod_lt _ (by omega)
        rw [List.map_append, continueDigits?_append,
          ih _ (Nat.div_lt_self (by omega) base_gt)]
        simp [continueDigits?, reads _ last, last, Nat.div_add_mod]

theorem continueDigits?_zeros
    (base : Nat)
    (base_pos : 0 < base)
    (count : Nat)
    (rest : List Char) :
    continueDigits? base 0 (List.replicate count '0' ++ rest) = continueDigits? base 0 rest := by
  induction count with
  | zero => rfl
  | succ count ih =>
      rw [List.replicate_succ, List.cons_append, continueDigits?]
      have zero : digitValue? '0' = some 0 := by decide
      simp [zero, base_pos, ih]

theorem digits?_eq_continueDigits?
    (notEmpty : chars ≠ []) :
    digits? base chars = continueDigits? base 0 chars := by
  cases chars with
  | nil => exact absurd rfl notEmpty
  | cons char rest => rfl

/-- A decimal or hexadecimal digit, the letters in upper case. -/
def upperDigit (digit : Nat) : Char :=
  (Nat.digitChar digit).toUpper

theorem upperDigit_spec :
    ∀ digit < 16, digitValue? (upperDigit digit) = some digit ∧
      isBlank (upperDigit digit) = false ∧
      upperDigit digit ∉ ['-', '+', 'x', 'X', ':'] := by
  decide

theorem upperDigit_of_lt_ten : ∀ digit < 10, upperDigit digit = Nat.digitChar digit := by
  decide

/-- A text of upper-case digits. -/
def Digits (chars : List Char) : Prop :=
  ∀ char ∈ chars, ∃ digit < 16, char = upperDigit digit

namespace Digits

variable {chars : List Char} {base number : Nat}

variable (digits : Digits chars)

include digits

theorem notBlank : ∀ char ∈ chars, isBlank char = false := by
  intro char member
  obtain ⟨digit, small, rfl⟩ := digits char member
  exact (upperDigit_spec digit small).2.1

theorem unpadded : Unpadded chars :=
  unpadded_of_forall digits.notBlank

theorem not_mem : ∀ mark ∈ ['-', '+', 'x', 'X', ':'], mark ∉ chars := by
  intro mark isMark member
  obtain ⟨digit, small, rfl⟩ := digits mark member
  exact (upperDigit_spec digit small).2.2 isMark

/-- Digits that do not begin with a mark of another base are decimal. -/
theorem splitBase_eq : splitBase chars = (10, chars) := by
  unfold splitBase
  split
  · exact absurd (by simp) (digits.not_mem 'x' (by simp))
  · exact absurd (by simp) (digits.not_mem 'X' (by simp))
  · rfl

theorem signed64?_eq
    (reads : digits? base chars = some number)
    (small : number < 2 ^ 63) :
    signed64? base chars = some (number : Int) := by
  unfold signed64?
  split
  · exact absurd (by simp) (digits.not_mem '-' (by simp))
  · exact absurd (by simp) (digits.not_mem '+' (by simp))
  · rw [reads]
    simp [Option.filter]
    omega

theorem unsigned64?_eq
    (reads : digits? base chars = some number)
    (small : number < 2 ^ 64) :
    unsigned64? base chars = some (UInt64.ofNat number) := by
  unfold unsigned64?
  split
  · exact absurd (by simp) (digits.not_mem '+' (by simp))
  · rw [reads]
    simp [Option.filter]
    omega

end Digits

/-! ## Numbers -/

theorem digits_toDigits (number : Nat) : Digits (Nat.toDigits 10 number) := by
  intro char member
  obtain ⟨digit, small, rfl⟩ := exists_digitChar_of_mem_toDigits (by decide) member
  exact ⟨digit, by omega, (upperDigit_of_lt_ten digit small).symm⟩

theorem digits?_toDigits (number : Nat) : digits? 10 (Nat.toDigits 10 number) = some number := by
  have reads : continueDigits? 10 0 ((Nat.toDigits 10 number).map id) = some number :=
    continueDigits?_toDigits (by decide) (by decide) number
  rwa [List.map_id, ← digits?_eq_continueDigits? Nat.toDigits_ne_nil] at reads

theorem digits_hex (width number : Nat) : Digits (hex width number).toList := by
  intro char member
  rw [hex, String.toList_ofList, List.mem_append] at member
  rcases member with isPadding | isUpper
  · rw [List.eq_of_mem_replicate isPadding]
    exact ⟨0, by decide, by decide⟩
  · obtain ⟨_, isDigit, rfl⟩ := List.mem_map.mp isUpper
    obtain ⟨digit, small, rfl⟩ := exists_digitChar_of_mem_toDigits (by decide) isDigit
    exact ⟨digit, small, rfl⟩

/-- A number in hexadecimal is read as that number. -/
theorem digits?_hex (width number : Nat) : digits? 16 (hex width number).toList = some number := by
  have notEmpty : (hex width number).toList ≠ [] := by
    rw [hex, String.toList_ofList]
    simp
  rw [digits?_eq_continueDigits? notEmpty, hex, String.toList_ofList,
    continueDigits?_zeros 16 (by decide)]
  exact continueDigits?_toDigits (by decide) (by decide) number

theorem hex_injective
    {width other : Nat}
    (same : hex width number = hex width other) :
    number = other := by
  have reads := digits?_hex width number
  rw [same, digits?_hex] at reads
  exact (Option.some.inj reads).symm

theorem negate64_of_abs_lt
    (notBelow : -2 ^ 63 < value)
    (notAbove : value < 2 ^ 63) :
    negate64 value = -value := by
  unfold negate64
  exact Int.bmod_eq_of_le (by omega) (by omega)

/-- The sign of a text is taken off before the digits are read. -/
theorem integer?_ofList
    (unpadded : Unpadded chars)
    (notNegative : chars.head? ≠ some '-') :
    integer? (String.ofList chars) = numeral? chars := by
  rw [integer?, trim_ofList unpadded, String.toList_ofList]
  split
  · exact absurd rfl notNegative
  · rfl

theorem numeral?_toDigits
    (small : number < 2 ^ 63) :
    numeral? (Nat.toDigits 10 number) = some (number : Int) := by
  rw [numeral?, (digits_toDigits number).splitBase_eq]
  exact (digits_toDigits number).signed64?_eq (digits?_toDigits number) small

/-- The characters of an integer: a minus sign if it is negative, and digits. -/
theorem toString_int_eq (value : Int) :
    toString value =
      String.ofList ((if value < 0 then ['-'] else []) ++ Nat.toDigits 10 value.natAbs) := by
  rw [Int.toString_eq_repr, Int.repr_eq_if, Nat.repr_eq_ofList_toDigits,
    Nat.repr_eq_ofList_toDigits]
  split
  · rename_i notNegative
    have magnitude : value.natAbs = value.toNat := by omega
    rw [if_neg (by omega), magnitude, List.nil_append]
  · rename_i negative
    have magnitude : value.natAbs = (-value).toNat := by omega
    rw [if_pos (by omega), magnitude, String.ofList_append]

/-- The text of an integer is read as that integer. -/
theorem integer?_toString_int
    (notBelow : -2 ^ 63 < value)
    (notAbove : value < 2 ^ 63) :
    integer? (toString value) = some value := by
  have reads : numeral? (Nat.toDigits 10 value.natAbs) = some (value.natAbs : Int) :=
    numeral?_toDigits (by omega)
  rw [toString_int_eq]
  split
  · have unpadded : Unpadded (['-'] ++ Nat.toDigits 10 value.natAbs) := by
      apply unpadded_of_forall
      rw [List.forall_mem_append, List.forall_mem_singleton]
      exact ⟨by decide, (digits_toDigits _).notBlank⟩
    rw [integer?, trim_ofList unpadded, String.toList_ofList]
    simp only [List.singleton_append, reads, Option.map_some, Option.some.injEq]
    rw [negate64_of_abs_lt (by omega) (by omega)]
    omega
  · have notNegative : (Nat.toDigits 10 value.natAbs).head? ≠ some '-' := by
      intro isHead
      exact (digits_toDigits _).not_mem '-' (by simp) (List.mem_of_mem_head? isHead)
    rw [List.nil_append, integer?_ofList (digits_toDigits _).unpadded notNegative, reads]
    congr 1
    omega

/-- The text of a natural number is read as that number. -/
theorem integer?_toString
    (small : number < 2 ^ 63) :
    integer? (toString number) = some (number : Int) := by
  have sameText : toString number = toString (number : Int) := by
    rw [toString_int_eq, Nat.toString_eq_ofList_toDigits, if_neg (by omega), List.nil_append,
      Int.natAbs_natCast]
  rw [sameText]
  exact integer?_toString_int (by omega) (by omega)

theorem hexText_eq (width number : Nat) :
    "0x" ++ hex width number = String.ofList ('0' :: 'x' :: (hex width number).toList) := by
  apply String.toList_injective
  simp

theorem unpadded_hexText (width number : Nat) :
    Unpadded ('0' :: 'x' :: (hex width number).toList) := by
  apply unpadded_of_forall
  rw [List.forall_mem_cons, List.forall_mem_cons]
  exact ⟨by decide, by decide, (digits_hex width number).notBlank⟩

theorem splitBase_hex (digits : List Char) : splitBase ('0' :: 'x' :: digits) = (16, digits) :=
  rfl

/-- A number in hexadecimal after the mark of the base is read as that number. -/
theorem integer?_hex
    (small : number < 2 ^ 63)
    (width : Nat) :
    integer? ("0x" ++ hex width number) = some (number : Int) := by
  rw [hexText_eq, integer?_ofList (unpadded_hexText width number) (by simp), numeral?,
    splitBase_hex]
  exact (digits_hex width number).signed64?_eq (digits?_hex width number) small

/-- A word in hexadecimal after the mark of the base is read as that word. -/
theorem word?_hex
    (small : number < 2 ^ 64)
    (width : Nat) :
    word? ("0x" ++ hex width number) = some (UInt64.ofNat number) := by
  rw [hexText_eq, word?, trim_ofList (unpadded_hexText width number), String.toList_ofList,
    splitBase_hex]
  exact (digits_hex width number).unsigned64?_eq (digits?_hex width number) small

/-- A text that begins with neither a decimal digit nor a sign is no integer. -/
theorem integer?_eq_none
    {first : Char} {rest : List Char}
    (unpadded : Unpadded (first :: rest))
    (notDecimal : (digitValue? first).all (10 ≤ ·) = true)
    (notSign : first ∉ ['-', '+']) :
    integer? (String.ofList (first :: rest)) = none := by
  have notZero : first ≠ '0' := by
    rintro rfl
    exact absurd notDecimal (by decide)
  have decimal : splitBase (first :: rest) = (10, first :: rest) := by
    unfold splitBase
    split
    · simp_all
    · simp_all
    · rfl
  have noDigits : digits? 10 (first :: rest) = none := by
    simp only [digits?, continueDigits?]
    split
    · rename_i digit isDigit
      rw [isDigit, Option.all_some, decide_eq_true_eq] at notDecimal
      rw [if_neg (by omega)]
    · rfl
  have notNegative : first ≠ '-' := fun same => notSign (by simp [same])
  have notPositive : first ≠ '+' := fun same => notSign (by simp [same])
  rw [integer?_ofList unpadded (by simpa using notNegative), numeral?, decimal]
  simp only [signed64?]
  split
  · simp_all
  · simp_all
  · simp [noDigits]

end Text

namespace Listing

open Text

variable {address other : Nat}

theorem labelName_eq (address : Nat) :
    labelName address = String.ofList ('l' :: 'o' :: 'c' :: '_' :: (hex 6 address).toList) := by
  apply String.toList_injective
  simp [labelName, Text.address]

theorem addressName_eq (address : Nat) :
    addressName address =
      String.ofList ('f' :: 'u' :: 'n' :: 'c' :: '_' :: (hex 6 address).toList) := by
  apply String.toList_injective
  simp [addressName, Text.address]

theorem unpadded_labelName (address : Nat) : Unpadded (labelName address).toList := by
  rw [labelName_eq, String.toList_ofList]
  apply unpadded_of_forall
  simp only [List.forall_mem_cons]
  exact ⟨by decide, by decide, by decide, by decide, (digits_hex 6 address).notBlank⟩

theorem integer?_labelName (address : Nat) : integer? (labelName address) = none := by
  have unpadded := unpadded_labelName address
  rw [labelName_eq, String.toList_ofList] at unpadded
  rw [labelName_eq]
  exact integer?_eq_none unpadded (by decide) (by decide)

theorem integer?_addressName (address : Nat) : integer? (addressName address) = none := by
  have unpadded : Unpadded ('f' :: 'u' :: 'n' :: 'c' :: '_' :: (hex 6 address).toList) := by
    apply unpadded_of_forall
    simp only [List.forall_mem_cons]
    exact ⟨by decide, by decide, by decide, by decide, by decide, (digits_hex 6 address).notBlank⟩
  rw [addressName_eq]
  exact integer?_eq_none unpadded (by decide) (by decide)

theorem labelName_injective
    (same : labelName address = labelName other) :
    address = other := by
  rw [labelName, labelName, String.append_right_inj] at same
  exact hex_injective same

theorem addressName_injective
    (same : addressName address = addressName other) :
    address = other := by
  rw [addressName, addressName, String.append_right_inj] at same
  exact hex_injective same

end Listing
end ScriptBytecode
