import ScriptBytecode.Text.GraphemeExtend
import ScriptBytecode.Text.Invisible

/-!
# Quoted text

Dumps show strings in double quotes.  A quote, a backslash and the common controls have short
escapes; every other character without a visible form of its own, or that would change the look
of the one before it, is given by its code point.
-/

namespace ScriptBytecode
namespace Text

/-- Whether a character would change the look of the one before it.  The voicing marks of the
halfwidth katakana extend the kana before them, but take a place of their own. -/
def isCombining (char : Char) : Bool :=
  isGraphemeExtend char && char != '\uff9e' && char != '\uff9f'

/-- A code point in braces, in lower-case hexadecimal. -/
def codePointEscape (char : Char) : List Char :=
  '\\' :: 'u' :: '\x7b' :: Nat.toDigits 16 char.toNat ++ ['\x7d']

/-- A character between quotes. -/
def quotedChar (char : Char) : List Char :=
  match char with
  | '"' => ['\\', '"']
  | '\\' => ['\\', '\\']
  | '\n' => ['\\', 'n']
  | '\r' => ['\\', 'r']
  | '\t' => ['\\', 't']
  | '\x00' => ['\\', '0']
  | char =>
    if ' ' ≤ char ∧ char ≤ '~' then [char]
    else if isCombining char || isInvisible char then codePointEscape char
    else [char]

/-- A text in double quotes. -/
def quoted (text : String) : String :=
  let body := text.toList.foldl
    (fun written char => (quotedChar char).foldl String.push written) "\""
  body.push '"'

end Text
end ScriptBytecode
