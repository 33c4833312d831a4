/-!
# Documents

A document is a tree of records and lists with texts and numbers for leaves.  It is written on one
line, in the notation that braces, brackets and quotes make up, which the common data formats
share.
-/

namespace ScriptBytecode

/-- A document. -/
inductive Document where
  | absent
  | number (value : Nat)
  | text (value : String)
  | list (elements : List Document)
  | record (fields : List (String × Document))
deriving Repr

namespace Document

/-- The digits of a number below 2 ^ 16 in hexadecimal, four of them. -/
def fourDigits (value : Nat) : List Char :=
  [value / 4096, value / 256 % 16, value / 16 % 16, value % 16].map Nat.digitChar

/-- Whether a character is written as its code point. -/
def isEscaped (char : Char) : Bool :=
  char.toNat < 0x20 || (0x7F ≤ char.toNat && char.toNat < 0xA0) ||
    char.toNat == 0x2028 || char.toNat == 0x2029 || char.toNat == 0xFEFF

/-- A character between quotes. -/
def writeChar (char : Char) : List Char :=
  if char = '"' then ['\\', '"']
  else if char = '\\' then ['\\', '\\']
  else if isEscaped char then '\\' :: 'u' :: fourDigits char.toNat
  else [char]

/-- A text in quotes. -/
def writeText (text : String) : String :=
  String.ofList ('"' :: text.toList.flatMap writeChar ++ ['"'])

mutual

/-- Writes a document. -/
def write : Document → String
  | .absent => "null"
  | .number value => toString value
  | .text value => writeText value
  | .list elements => "[" ++ String.intercalate ", " (writeElements elements) ++ "]"
  | .record fields => "\x7b" ++ String.intercalate ", " (writeFields fields) ++ "\x7d"

/-- Writes the elements of a list. -/
def writeElements : List Document → List String
  | [] => []
  | element :: rest => element.write :: writeElements rest

/-- Writes the fields of a record. -/
def writeFields : List (String × Document) → List String
  | [] => []
  | (name, value) :: rest => (writeText name ++ ": " ++ value.write) :: writeFields rest

end

/-- The field of a record. -/
def field? (document : Document) (name : String) : Option Document :=
  match document with
  | .record fields => fields.lookup name
  | _ => none

end Document
end ScriptBytecode
