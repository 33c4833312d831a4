import ScriptBytecode.Bytes

/-!
# UTF-8 text in byte strings

Bytes are read one at a time by a machine that is either between characters or inside one.  A
byte that cannot continue a character ends it: what was read of it, at least one byte, becomes one
replacement character, and the byte starts a new character.
-/

namespace ScriptBytecode
namespace Utf8

/-- The character that stands for bytes that are no character. -/
def replacement : Char := '�'

/-- Where the reader stands between two bytes. -/
inductive State where
  | between
  /-- Inside a character: the bytes still to come, the range of the next one, and the code point
  bits read so far. -/
  | inside (remaining : Nat) (low high : UInt8) (bits : Nat)
deriving DecidableEq, Repr

/-- The first byte of a character: the characters it completes and the state after it. -/
def State.first (byte : UInt8) : List Char × State :=
  let value := byte.toNat
  if value < 0x80 then ([Char.ofNat value], .between)
  else if value < 0xC2 then ([replacement], .between)
  else if value < 0xE0 then ([], .inside 1 0x80 0xBF (value - 0xC0))
  else if value = 0xE0 then ([], .inside 2 0xA0 0xBF 0)
  else if value = 0xED then ([], .inside 2 0x80 0x9F 0xD)
  else if value < 0xF0 then ([], .inside 2 0x80 0xBF (value - 0xE0))
  else if value = 0xF0 then ([], .inside 3 0x90 0xBF 0)
  else if value < 0xF4 then ([], .inside 3 0x80 0xBF (value - 0xF0))
  else if value = 0xF4 then ([], .inside 3 0x80 0x8F 4)
  else ([replacement], .between)

/-- One byte: the characters it completes and the state after it. -/
def State.step (state : State) (byte : UInt8) : List Char × State :=
  match state with
  | .between => State.first byte
  | .inside remaining low high bits =>
    if low ≤ byte ∧ byte ≤ high then
      let bits := bits * 64 + byte.toNat % 64
      if remaining ≤ 1 then ([Char.ofNat bits], .between)
      else ([], .inside (remaining - 1) 0x80 0xBF bits)
    else
      let (chars, next) := State.first byte
      (replacement :: chars, next)

/-- The characters owed when the bytes end in a state. -/
def State.last : State → List Char
  | .between => []
  | .inside .. => [replacement]

/-- Reads bytes as text; every maximal part that is no character becomes one replacement. -/
def decode (bytes : Bytes) : String :=
  let (state, text) := bytes.foldl
    (fun (state, text) byte =>
      let (chars, next) := State.step state byte
      (next, chars.foldl String.push text))
    (State.between, "")
  state.last.foldl String.push text

/-- The bytes of a text. -/
def encode (text : String) : Bytes :=
  text.toUTF8.data

/-- The longest prefix of some characters whose encoding has at most `limit` bytes. -/
def truncate (limit : Nat) : List Char → List Char
  | [] => []
  | char :: rest =>
    if char.utf8Size ≤ limit then char :: truncate (limit - char.utf8Size) rest else []

end Utf8
end ScriptBytecode
