/-!
# Blank characters

The characters with the White_Space property, and the removal of blanks around a text.
-/

namespace ScriptBytecode
namespace Text

/-- The first and last code points of the runs of blank characters. -/
def blankRanges : List (Nat × Nat) :=
  [(0x0009, 0x000D), (0x0020, 0x0020), (0x0085, 0x0085), (0x00A0, 0x00A0), (0x1680, 0x1680),
    (0x2000, 0x200A), (0x2028, 0x2029), (0x202F, 0x202F), (0x205F, 0x205F), (0x3000, 0x3000)]

/-- Whether a character is blank. -/
def isBlank (char : Char) : Bool :=
  blankRanges.any fun (first, last) => first ≤ char.toNat ∧ char.toNat ≤ last

/-- A text without the blanks at its start. -/
def trimStart (chars : List Char) : List Char :=
  chars.dropWhile isBlank

/-- A text without the blanks at its end. -/
def trimEnd (chars : List Char) : List Char :=
  (chars.reverse.dropWhile isBlank).reverse

/-- A text without the blanks around it. -/
def trim (text : String) : String :=
  String.ofList (trimEnd (trimStart text.toList))

theorem isBlank_of_isWhitespace {char : Char} (whitespace : char.isWhitespace) :
    isBlank char := by
  simp only [Char.isWhitespace, Bool.or_eq_true, decide_eq_true_eq] at whitespace
  rcases whitespace with ((rfl | rfl) | rfl) | rfl <;> decide

end Text
end ScriptBytecode
