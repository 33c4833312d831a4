/-!
# Hexadecimal text

Numbers are shown in upper-case hexadecimal, padded with zeros to a least width.
-/

namespace ScriptBytecode
namespace Text

/-- The upper-case hexadecimal digits of a number, at least `width` of them. -/
def hex (width value : Nat) : String :=
  let digits := (Nat.toDigits 16 value).map Char.toUpper
  String.ofList (List.replicate (width - digits.length) '0' ++ digits)

/-- An address in listings: at least six digits. -/
def address (value : Nat) : String :=
  hex 6 value

end Text
end ScriptBytecode
