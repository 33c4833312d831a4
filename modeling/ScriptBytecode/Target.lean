import ScriptBytecode.Error
import ScriptBytecode.Text.Blank
import ScriptBytecode.Text.Split

/-!
# Build targets

A build target is a game and a platform, written with a hyphen between them.  Only one target has
the instruction set of this library.
-/

namespace ScriptBytecode

/-- The games that scripts are built for. -/
inductive Game where
  | gtaiv
  | mc4
  | rdr2
  | mp3
  | gtav
  | rdr3
deriving DecidableEq, Repr

namespace Game

/-- Every game. -/
def all : List Game := [.gtaiv, .mc4, .rdr2, .mp3, .gtav, .rdr3]

/-- The name of a game. -/
def name : Game → String
  | .gtaiv => "GTAIV"
  | .mc4 => "MC4"
  | .rdr2 => "RDR2"
  | .mp3 => "MP3"
  | .gtav => "GTAV"
  | .rdr3 => "RDR3"

end Game

/-- The platforms that scripts are built for. -/
inductive Platform where
  | xenon
  | x86
  | x64
deriving DecidableEq, Repr

namespace Platform

/-- Every platform. -/
def all : List Platform := [.xenon, .x86, .x64]

/-- The name of a platform. -/
def name : Platform → String
  | .xenon => "Xenon"
  | .x86 => "x86"
  | .x64 => "x64"

end Platform

/-- A game on a platform. -/
structure Target where
  game : Game
  platform : Platform
deriving DecidableEq, Repr

namespace Target

/-- The target built for unless another one is asked for, and the only supported one. -/
def standard : Target := ⟨.rdr3, .x64⟩

/-- Text of a target. -/
def text (target : Target) : String :=
  target.game.name ++ "-" ++ target.platform.name

/-- Whether two texts are equal up to the case of ASCII letters. -/
def sameIgnoringCase (left right : String) : Bool :=
  left.toList.map Char.toLower == right.toList.map Char.toLower

/-- The target that a text names, whatever the case of its letters and the blanks around it. -/
def ofText? (text : String) : Option Target := do
  let (gameText, platformText) ← Text.splitFirst? '-' (Text.trim text)
  let game ← Game.all.find? fun game => sameIgnoringCase game.name gameText
  let platform ← Platform.all.find? fun platform => sameIgnoringCase platform.name platformText
  return ⟨game, platform⟩

/-- Reads a target. -/
def read (text : String) : Except Error Target :=
  match ofText? text with
  | some target => .ok target
  | none => .error (.invalidTarget text)

/-- Fails unless a target is supported. -/
def ensureSupported (target : Target) : Except Error Unit :=
  if target = standard then .ok () else .error (.unsupportedTarget target.text)

end Target
end ScriptBytecode
