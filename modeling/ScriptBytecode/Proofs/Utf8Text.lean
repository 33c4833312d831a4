import ScriptBytecode.Instruction.Operands

/-!
# Reading back text

The bytes of a text are read as that text.  Only the character zero has a zero byte, and no
character has a byte of ones, so neither terminators nor markers are taken for parts of a text.
-/

namespace ScriptBytecode
namespace Utf8

variable {value : Nat} {low high : UInt8} {payload : Nat}

/-! ## The reader as a function on lists -/

/-- The characters that are read from a state on. -/
def charsFrom : State → List UInt8 → List Char
  | state, [] => state.last
  | state, byte :: rest => (state.step byte).1 ++ charsFrom (state.step byte).2 rest

theorem foldl_push (chars : List Char) (text : String) :
    chars.foldl String.push text = text ++ String.ofList chars := by
  induction chars generalizing text with
  | nil => simp
  | cons char rest ih =>
      rw [List.foldl_cons, ih]
      apply String.toList_injective
      simp

/-- One byte, with the text that was read before it. -/
def readByte : State × String → UInt8 → State × String
  | (state, text), byte => ((state.step byte).2, (state.step byte).1.foldl String.push text)

theorem foldl_readByte (bytes : List UInt8) (state : State) (text : String) :
    (bytes.foldl readByte (state, text)).1.last.foldl String.push
        (bytes.foldl readByte (state, text)).2 =
      text ++ String.ofList (charsFrom state bytes) := by
  induction bytes generalizing state text with
  | nil => exact foldl_push _ _
  | cons byte rest ih =>
      rw [List.foldl_cons, readByte, ih, foldl_push, charsFrom,
        String.ofList_append, String.append_assoc]

/-- Bytes are read from the state between characters on. -/
theorem decode_eq (bytes : Bytes) :
    decode bytes = String.ofList (charsFrom .between bytes.toList) := by
  have whole := foldl_readByte bytes.toList .between ""
  rw [String.empty_append] at whole
  rw [← whole, decode, ← Array.foldl_toList]
  rfl

theorem toNat_ofNat_of_lt (small : value < 256) :
    (UInt8.ofNat value).toNat = value := by
  rw [UInt8.toNat_ofNat']
  omega

/-- A payload whose byte inside of a character lies in a range. -/
structure InRange (low high : UInt8) (payload : Nat) : Prop where
  notBelow : low.toNat ≤ payload + 128
  notAbove : payload + 128 ≤ high.toNat
  small : payload < 64

theorem inRange_of_lt (small : payload < 64) : InRange 0x80 0xBF payload := by
  refine ⟨Nat.le_add_left 128 payload, ?_, small⟩
  simp only [UInt8.reduceToNat]
  omega

theorem step_inside
    (inRange : InRange low high payload)
    (remaining bits : Nat) :
    State.step (.inside remaining low high bits) (UInt8.ofNat (payload + 128)) =
      if remaining ≤ 1 then ([Char.ofNat (bits * 64 + payload)], .between)
      else ([], .inside (remaining - 1) 0x80 0xBF (bits * 64 + payload)) := by
  obtain ⟨notBelow, notAbove, small⟩ := inRange
  have byte := toNat_ofNat_of_lt (show payload + 128 < 256 by omega)
  have inside : low ≤ UInt8.ofNat (payload + 128) ∧ UInt8.ofNat (payload + 128) ≤ high := by
    rw [UInt8.le_iff_toNat_le, UInt8.le_iff_toNat_le, byte]
    exact ⟨notBelow, notAbove⟩
  have bitsOf : (payload + 128) % 64 = payload := by omega
  rw [State.step, if_pos inside, byte, bitsOf]

/-- The last byte of a character. -/
theorem charsFrom_last
    (inRange : InRange low high payload)
    (bits : Nat)
    (rest : List UInt8) :
    charsFrom (.inside 1 low high bits) (UInt8.ofNat (payload + 128) :: rest) =
      Char.ofNat (bits * 64 + payload) :: charsFrom .between rest := by
  rw [charsFrom, step_inside inRange]
  rfl

/-- A byte inside of a character. -/
theorem charsFrom_inside
    (inRange : InRange low high payload)
    (remaining bits : Nat)
    (rest : List UInt8) :
    charsFrom (.inside (remaining + 2) low high bits) (UInt8.ofNat (payload + 128) :: rest) =
      charsFrom (.inside (remaining + 1) 0x80 0xBF (bits * 64 + payload)) rest := by
  rw [charsFrom, step_inside inRange, if_neg (by omega)]
  rfl

theorem charsFrom_first
    {byte : UInt8} {state : State}
    (first : State.first byte = ([], state))
    (rest : List UInt8) :
    charsFrom .between (byte :: rest) = charsFrom state rest := by
  rw [charsFrom, State.step, first]
  rfl

/-- The range of the second byte of a character of three bytes, by the payload of the first: what
has a shorter form and what is no character is left out. -/
def secondOfThree (payload : Nat) : UInt8 × UInt8 :=
  if payload = 0 then (0xA0, 0xBF) else if payload = 0xD then (0x80, 0x9F) else (0x80, 0xBF)

/-- The range of the second byte of a character of four bytes, by the payload of the first. -/
def secondOfFour (payload : Nat) : UInt8 × UInt8 :=
  if payload = 0 then (0x90, 0xBF) else if payload = 4 then (0x80, 0x8F) else (0x80, 0xBF)

section First

variable {payload : Nat}

theorem first_of_two
    (notShorter : 2 ≤ payload)
    (small : payload < 32) :
    State.first (UInt8.ofNat (payload + 0xC0)) = ([], .inside 1 0x80 0xBF payload) := by
  have byte := toNat_ofNat_of_lt (show payload + 0xC0 < 256 by omega)
  unfold State.first
  simp only [byte, Nat.add_sub_cancel]
  rw [if_neg (by omega), if_neg (by omega), if_pos (by omega)]

theorem first_of_three (small : payload < 16) :
    State.first (UInt8.ofNat (payload + 0xE0)) =
      ([], .inside 2 (secondOfThree payload).1 (secondOfThree payload).2 payload) := by
  have byte := toNat_ofNat_of_lt (show payload + 0xE0 < 256 by omega)
  unfold State.first secondOfThree
  simp only [byte, Nat.add_sub_cancel]
  rw [if_neg (by omega), if_neg (by omega), if_neg (by omega)]
  by_cases isFirst : payload = 0
  · simp [isFirst]
  · rw [if_neg (by omega)]
    by_cases isSurrogate : payload = 0xD
    · simp [isSurrogate]
    · rw [if_neg (by omega), if_pos (by omega)]
      simp [isFirst, isSurrogate]

theorem first_of_four (small : payload ≤ 4) :
    State.first (UInt8.ofNat (payload + 0xF0)) =
      ([], .inside 3 (secondOfFour payload).1 (secondOfFour payload).2 payload) := by
  have byte := toNat_ofNat_of_lt (show payload + 0xF0 < 256 by omega)
  unfold State.first secondOfFour
  simp only [byte, Nat.add_sub_cancel]
  rw [if_neg (by omega), if_neg (by omega), if_neg (by omega), if_neg (by omega),
    if_neg (by omega), if_neg (by omega)]
  by_cases isFirst : payload = 0
  · simp [isFirst]
  · rw [if_neg (by omega)]
    by_cases isLast : payload = 4
    · simp [isLast]
    · rw [if_pos (by omega)]
      simp [isFirst, isLast]

end First

/-! ## Characters -/

theorem toNat_valid (char : Char) :
    char.val.toNat < 0xD800 ∨ 0xDFFF < char.val.toNat ∧ char.val.toNat < 0x110000 :=
  char.valid

theorem inRange_secondOfThree
    (notShorter : 0x800 ≤ value)
    (notLonger : value < 0x10000)
    (noSurrogate : value < 0xD800 ∨ 0xDFFF < value) :
    InRange (secondOfThree (value / 4096 % 16)).1 (secondOfThree (value / 4096 % 16)).2
      (value / 64 % 64) := by
  unfold secondOfThree
  split
  · refine ⟨?_, ?_, by omega⟩ <;> simp only [UInt8.reduceToNat] <;> omega
  · split
    · refine ⟨?_, ?_, by omega⟩ <;> simp only [UInt8.reduceToNat] <;> omega
    · exact inRange_of_lt (by omega)

theorem inRange_secondOfFour
    (notShorter : 0x10000 ≤ value)
    (notLonger : value < 0x110000) :
    InRange (secondOfFour (value / 262144 % 8)).1 (secondOfFour (value / 262144 % 8)).2
      (value / 4096 % 64) := by
  unfold secondOfFour
  split
  · refine ⟨?_, ?_, by omega⟩ <;> simp only [UInt8.reduceToNat] <;> omega
  · split
    · refine ⟨?_, ?_, by omega⟩ <;> simp only [UInt8.reduceToNat] <;> omega
    · exact inRange_of_lt (by omega)

/-- The bytes of a character are read as that character. -/
theorem charsFrom_utf8EncodeChar (char : Char) (rest : List UInt8) :
    charsFrom .between (String.utf8EncodeChar char ++ rest) = char :: charsFrom .between rest := by
  have valid := toNat_valid char
  have isChar : Char.ofNat char.val.toNat = char := Char.ofNat_toNat char
  generalize isValue : char.val.toNat = value at valid isChar
  have last : InRange 0x80 0xBF (value % 64) := inRange_of_lt (by omega)
  simp only [String.utf8EncodeChar, isValue]
  split
  · have byte := toNat_ofNat_of_lt (show value < 256 by omega)
    have first : State.first (UInt8.ofNat value) = ([char], .between) := by
      unfold State.first
      simp only [byte]
      rw [if_pos (by omega), isChar]
    simp [charsFrom, State.step, first]
  · split
    · have bits : value / 64 % 32 * 64 + value % 64 = value := by omega
      rw [List.cons_append, charsFrom_first (first_of_two (by omega) (by omega)),
        List.cons_append, charsFrom_last last, bits, isChar, List.nil_append]
    · split
      · have bits : (value / 4096 % 16 * 64 + value / 64 % 64) * 64 + value % 64 = value := by
          omega
        rw [List.cons_append, charsFrom_first (first_of_three (by omega)), List.cons_append,
          charsFrom_inside (inRange_secondOfThree (by omega) (by omega) (by omega)),
          List.cons_append, charsFrom_last last, bits, isChar, List.nil_append]
      · have bits : ((value / 262144 % 8 * 64 + value / 4096 % 64) * 64 + value / 64 % 64) * 64 +
            value % 64 = value := by
          omega
        rw [List.cons_append, charsFrom_first (first_of_four (by omega)), List.cons_append,
          charsFrom_inside (inRange_secondOfFour (by omega) (by omega)), List.cons_append,
          charsFrom_inside (inRange_of_lt (by omega)), List.cons_append, charsFrom_last last,
          bits, isChar, List.nil_append]

/-- The bytes of a character are small, and only the character zero has a zero byte. -/
theorem of_mem_utf8EncodeChar
    {char : Char} {byte : UInt8}
    (member : byte ∈ String.utf8EncodeChar char) :
    byte.toNat < 0xFF ∧ (byte.toNat = 0 → char = '\x00') := by
  have isChar : Char.ofNat char.val.toNat = char := Char.ofNat_toNat char
  have positive : ∀ payload lead : Nat, payload + lead < 0xFF → 0 < lead →
      (UInt8.ofNat (payload + lead)).toNat < 0xFF ∧
        ((UInt8.ofNat (payload + lead)).toNat = 0 → char = '\x00') := by
    intro payload lead small notZero
    rw [toNat_ofNat_of_lt (by omega)]
    omega
  generalize isValue : char.val.toNat = value at isChar
  have valid := toNat_valid char
  simp only [String.utf8EncodeChar, isValue] at member valid
  split at member
  · rw [List.mem_singleton.mp member, toNat_ofNat_of_lt (by omega)]
    refine ⟨by omega, ?_⟩
    rintro rfl
    exact isChar.symm
  · split at member
    · simp only [List.mem_cons, List.not_mem_nil, or_false] at member
      rcases member with rfl | rfl <;> exact positive _ _ (by omega) (by decide)
    · split at member
      · simp only [List.mem_cons, List.not_mem_nil, or_false] at member
        rcases member with rfl | rfl | rfl <;> exact positive _ _ (by omega) (by decide)
      · simp only [List.mem_cons, List.not_mem_nil, or_false] at member
        rcases member with rfl | rfl | rfl | rfl <;> exact positive _ _ (by omega) (by decide)

/-! ## Texts -/

/-- The bytes of characters. -/
def encodeChars (chars : List Char) : List UInt8 :=
  chars.flatMap String.utf8EncodeChar

theorem toList_encode (text : String) : (encode text).toList = encodeChars text.toList := by
  have bytes := String.utf8Encode_toList (b := text)
  rw [encode, String.toUTF8_eq_toByteArray, ← bytes, List.utf8Encode]
  simp [encodeChars]

theorem charsFrom_encodeChars (chars : List Char) :
    charsFrom .between (encodeChars chars) = chars := by
  induction chars with
  | nil => rfl
  | cons char rest ih =>
      rw [encodeChars, List.flatMap_cons, charsFrom_utf8EncodeChar]
      exact congrArg _ ih

/-- The bytes of characters are read as the text of these characters. -/
theorem decode_encodeChars (chars : List Char) :
    decode (encodeChars chars).toArray = String.ofList chars := by
  rw [decode_eq, List.toList_toArray, charsFrom_encodeChars]

/-- Characters without the character zero have no zero byte. -/
theorem ne_zero_of_mem_encodeChars
    {chars : List Char}
    (noZero : '\x00' ∉ chars) :
    ∀ byte ∈ encodeChars chars, byte ≠ 0 := by
  intro byte member
  obtain ⟨char, isChar, isByte⟩ := List.mem_flatMap.mp member
  rintro rfl
  exact noZero ((of_mem_utf8EncodeChar isByte).2 rfl ▸ isChar)

/-- A zero byte ends what is read before it. -/
theorem takeWhile_append_zero
    {bytes : List UInt8}
    (noZero : ∀ byte ∈ bytes, byte ≠ 0)
    (rest : List UInt8) :
    (bytes ++ 0 :: rest).takeWhile (· != 0) = bytes := by
  rw [List.takeWhile_append_of_pos (by simpa using noZero)]
  simp

/-- Text does not begin with a byte of ones. -/
theorem dropWhile_marker (chars : List Char) :
    (encodeChars chars).dropWhile (· == 0xFF) = encodeChars chars := by
  cases isBytes : encodeChars chars with
  | nil => rfl
  | cons byte rest =>
      have member : byte ∈ encodeChars chars := by simp [isBytes]
      obtain ⟨char, _, isByte⟩ := List.mem_flatMap.mp member
      have small := (of_mem_utf8EncodeChar isByte).1
      have notMarker : byte ≠ 0xFF := by
        rintro rfl
        exact absurd small (by decide)
      rw [List.dropWhile_cons_of_neg (by simpa using notMarker)]

/-! ## Names of bounded length -/

theorem truncate_truncate (limit : Nat) (chars : List Char) :
    truncate limit (truncate limit chars) = truncate limit chars := by
  induction chars generalizing limit with
  | nil => rfl
  | cons char rest ih =>
      rw [truncate]
      split
      · rename_i fits
        rw [truncate, if_pos fits, ih]
      · rfl

theorem length_encodeChars_truncate (limit : Nat) (chars : List Char) :
    (encodeChars (truncate limit chars)).length ≤ limit := by
  induction chars generalizing limit with
  | nil => exact Nat.zero_le _
  | cons char rest ih =>
      rw [truncate]
      split
      · rename_i fits
        have later := ih (limit - char.utf8Size)
        rw [encodeChars, List.flatMap_cons, List.length_append, String.length_utf8EncodeChar]
        unfold encodeChars at later
        omega
      · exact Nat.zero_le _

end Utf8

namespace Operands

open Utf8

theorem length_nameFieldOf (name : Option String) : (nameFieldOf name).length < 256 := by
  cases name with
  | none => decide
  | some name =>
      have fits := length_encodeChars_truncate maxNameBytes name.toList
      unfold encodeChars maxNameBytes at fits
      rw [nameFieldOf, List.length_append, List.length_singleton]
      unfold maxNameBytes
      omega

/-- The name in the field of a name is as much of the name as fits. -/
theorem enterName?_nameFieldOf (name : Option String) :
    enterName? (nameFieldOf name) =
      name.map fun name => String.ofList (truncate maxNameBytes name.toList) := by
  cases name with
  | none => rfl
  | some name =>
      have notMarked := dropWhile_marker (truncate maxNameBytes name.toList)
      have text := decode_encodeChars (truncate maxNameBytes name.toList)
      unfold encodeChars at notMarked text
      rw [nameFieldOf, enterName?, if_neg (by simp), List.dropLast_concat, notMarked, text]
      rfl

/-- The name in a field is stored in that field again. -/
theorem nameFieldOf_enterName? (name : Option String) :
    nameFieldOf (enterName? (nameFieldOf name)) = nameFieldOf name := by
  rw [enterName?_nameFieldOf]
  cases name with
  | none => rfl
  | some name => simp only [Option.map_some, nameFieldOf, String.toList_ofList, truncate_truncate]

end Operands
end ScriptBytecode
