import ScriptBytecode.Document.Basic
import ScriptBytecode.Text.Integer

/-!
# Reading documents

Readers take characters and answer what they read with the characters after it.  Blanks may stand
between any two parts of a document.
-/

namespace ScriptBytecode
namespace Document

/-- Characters without the blanks at their start. -/
def skipBlanks (chars : List Char) : List Char :=
  Text.trimStart chars

/-- The character after a backslash, and what follows it. -/
def readEscape? : List Char → Option (Char × List Char)
  | '"' :: rest => some ('"', rest)
  | '\\' :: rest => some ('\\', rest)
  | '/' :: rest => some ('/', rest)
  | 'n' :: rest => some ('\n', rest)
  | 'r' :: rest => some ('\r', rest)
  | 't' :: rest => some ('\t', rest)
  | 'u' :: digit3 :: digit2 :: digit1 :: digit0 :: rest =>
    (Text.digits? 16 [digit3, digit2, digit1, digit0]).map fun value => (Char.ofNat value, rest)
  | _ => none

/-- Reads a text up to its closing quote; `read` holds its characters so far, the last one
first. -/
def readText? : (steps : Nat) → (read : List Char) → List Char → Option (String × List Char)
  | 0, _, _ => none
  | _ + 1, _, [] => none
  | _ + 1, read, '"' :: rest => some (String.ofList read.reverse, rest)
  | steps + 1, read, '\\' :: rest => do
    let (char, rest) ← readEscape? rest
    readText? steps (char :: read) rest
  | steps + 1, read, char :: rest => readText? steps (char :: read) rest

mutual

/-- Reads a document.  Every call of a reader takes a character or ends a part of the document, so
twice as many steps as there are characters are enough. -/
def readValue? : (steps : Nat) → List Char → Option (Document × List Char)
  | 0, _ => none
  | steps + 1, chars =>
    match skipBlanks chars with
    | '"' :: rest => (readText? steps [] rest).map fun (value, rest) => (.text value, rest)
    | '[' :: rest =>
      match skipBlanks rest with
      | ']' :: rest => some (.list [], rest)
      | rest => readElements? steps [] rest
    | '\x7b' :: rest =>
      match skipBlanks rest with
      | '\x7d' :: rest => some (.record [], rest)
      | rest => readFields? steps [] rest
    | 'n' :: 'u' :: 'l' :: 'l' :: rest => some (.absent, rest)
    | chars =>
      (Text.digits? 10 (chars.takeWhile Char.isDigit)).map fun value =>
        (.number value, chars.dropWhile Char.isDigit)

/-- Reads the elements of a list after those in `read`, the last one first. -/
def readElements? : (steps : Nat) → (read : List Document) → List Char →
    Option (Document × List Char)
  | 0, _, _ => none
  | steps + 1, read, chars => do
    let (element, rest) ← readValue? steps chars
    match skipBlanks rest with
    | ',' :: rest => readElements? steps (element :: read) rest
    | ']' :: rest => some (.list (element :: read).reverse, rest)
    | _ => none

/-- Reads the fields of a record after those in `read`, the last one first. -/
def readFields? : (steps : Nat) → (read : List (String × Document)) → List Char →
    Option (Document × List Char)
  | 0, _, _ => none
  | steps + 1, read, chars =>
    match skipBlanks chars with
    | '"' :: rest => do
      let (name, rest) ← readText? steps [] rest
      match skipBlanks rest with
      | ':' :: rest =>
        let (value, rest) ← readValue? steps rest
        match skipBlanks rest with
        | ',' :: rest => readFields? steps ((name, value) :: read) rest
        | '\x7d' :: rest => some (.record ((name, value) :: read).reverse, rest)
        | _ => none
      | _ => none
    | _ => none

end

/-- The document that a text stands for. -/
def ofText? (text : String) : Option Document :=
  let chars := text.toList
  match readValue? (2 * chars.length + 1) chars with
  | some (document, rest) => if (skipBlanks rest).isEmpty then some document else none
  | none => none

end Document
end ScriptBytecode
