/-!
# Splitting text

A text is split at the first occurrence of a separator, or at all of them.
-/

namespace ScriptBytecode
namespace Text

/-- A text split at the first occurrence of a character, which is dropped. -/
def splitFirst? (separator : Char) (text : String) : Option (String × String) :=
  match text.toList.span (· ≠ separator) with
  | (before, _ :: after) => some (String.ofList before, String.ofList after)
  | (_, []) => none

/-- The parts of a text between the occurrences of a character. -/
def splitAll (separator : Char) (text : String) : List String :=
  (text.toList.splitOn separator).map String.ofList

end Text
end ScriptBytecode
