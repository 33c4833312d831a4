import ScriptBytecode.Arena.Basic
import ScriptBytecode.Opcode.Family

/-!
# Fusing neighbouring instructions

A fusion replaces two neighbouring instructions by fewer or shorter ones with the same effect.  The
rules are tried in a fixed order on an instruction and the live one after it, provided that no
label stands between them.  After a fusion the same position is tried again, and whole passes are
made until one of them finds nothing.
-/

namespace ScriptBytecode

/-- What becomes of two neighbouring instructions. -/
inductive Fusion where
  /-- The first one gets new bytes, the second one goes. -/
  | intoFirst (bytes : Bytes)
  /-- The second one gets new bytes, the first one goes. -/
  | intoSecond (bytes : Bytes)
  /-- Both stay with new bytes. -/
  | both (first second : Bytes)
deriving DecidableEq, Repr

namespace Fusion

/-- The bytes of an instruction under another opcode. -/
def withOpcode (bytes : Bytes) (opcode : Opcode) : Bytes :=
  bytes.setIfInBounds 0 opcode.toByte

/-- The access made by a plain load or store. -/
def accessOf? : Opcode → Option Access
  | .load => some .load
  | .store => some .store
  | _ => none

/-- An address push and a load or store become the addressing opcode with that access. -/
def addressAccess? (first second : Bytes) : Option Fusion := do
  let access ← (opcodeOf? second).bind accessOf?
  let opcode ← opcodeOf? first
  let fused ← opcode.withAccess? access
  return .intoFirst (withOpcode first fused)

/-- A 16-bit push and an addition or multiplication become the arithmetic with an immediate. -/
def arithS16? (first second : Bytes) : Option Fusion := do
  let arith ← opcodeOf? second
  let fused ← arith.withImmediate? .s16
  if opcodeOf? first = some .pushConstS16 then some (.intoFirst (withOpcode first fused))
  else none

/-- The last byte pushed before an addition or multiplication becomes its immediate; the bytes
pushed before that one stay pushed. -/
def arithU8? (first second : Bytes) : Option Fusion := do
  let arith ← opcodeOf? second
  let fused ← arith.withImmediate? .u8
  let opcode ← opcodeOf? first
  match opcode with
  | .pushConstU8 =>
    let value ← first[1]?
    return .intoFirst #[fused.toByte, value]
  | .pushConstU8U8 =>
    let value0 ← first[1]?
    let value1 ← first[2]?
    return .both #[Opcode.pushConstU8.toByte, value0] #[fused.toByte, value1]
  | .pushConstU8U8U8 =>
    let value0 ← first[1]?
    let value1 ← first[2]?
    let value2 ← first[3]?
    return .both #[Opcode.pushConstU8U8.toByte, value0, value1] #[fused.toByte, value2]
  | _ =>
    let value ← opcode.intConstant?
    if 0 ≤ value then some (.intoFirst #[fused.toByte, UInt8.ofNat value.toNat]) else none

/-- The opcode that pushes one byte more. -/
def pushOneMore? : Opcode → Option Opcode
  | .pushConstU8 => some .pushConstU8U8
  | .pushConstU8U8 => some .pushConstU8U8U8
  | _ => none

/-- Byte pushes are merged, up to three bytes. -/
def mergePushes? (first second : Bytes) : Option Fusion := do
  let opcode ← opcodeOf? first
  let merged ← pushOneMore? opcode
  if opcodeOf? second = some .pushConstU8 then
    let value ← second[1]?
    return .intoFirst ((withOpcode first merged).push value)
  else none

/-- An integer comparison and a jump on zero become the comparing jump. -/
def compareJump? (first second : Bytes) : Option Fusion := do
  let compare ← opcodeOf? first
  let fused ← compare.compareJump?
  if opcodeOf? second = some .jz then some (.intoSecond (withOpcode second fused)) else none

/-- The fusion of two neighbouring instructions by the first rule that applies. -/
def find? (first second : Bytes) : Option Fusion :=
  addressAccess? first second <|> arithS16? first second <|> arithU8? first second <|>
    mergePushes? first second <|> compareJump? first second

end Fusion

namespace Arena

/-- Gives an instruction other bytes. -/
def setBytes (arena : Arena) (handle : Handle) (bytes : Bytes) : Arena :=
  arena.modify handle fun entry => { entry with bytes }

/-- Carries out a fusion of two instructions. -/
def applyFusion (arena : Arena) (first second : Handle) : Fusion → Arena
  | .intoFirst bytes => ((arena.setBytes first bytes).remove second).2
  | .intoSecond bytes => ((arena.setBytes second bytes).remove first).2
  | .both firstBytes secondBytes =>
    (arena.setBytes first firstBytes).setBytes second secondBytes

/-- The fusion of two instructions; there is none if a label stands for the second one. -/
def fusion? (arena : Arena) (first second : Handle) : Option Fusion := do
  let firstEntry ← arena.get? first
  let secondEntry ← arena.get? second
  if secondEntry.labels.isEmpty then Fusion.find? firstEntry.bytes secondEntry.bytes else none

/-- Whether an opcode is an addition or multiplication without an immediate. -/
def isPlainArith (opcode : Option Opcode) : Bool :=
  opcode == some .iadd || opcode == some .imul

/-- An upper bound for the number of fusions: each removes an instruction or gives a plain addition
or multiplication its immediate. -/
def fusionBound (arena : Arena) : Nat :=
  let live := arena.slots.filterMap Slot.entry
  live.size + (live.filter fun entry => isPlainArith (opcodeOf? entry.bytes)).size

/-- One pass over the positions from a given one on, with the number of fusions made.  Every step
goes on to the next position or makes a fusion. -/
def fusePass : (steps position fusions : Nat) → Arena → Arena × Nat
  | 0, _, fusions, arena => (arena, fusions)
  | steps + 1, position, fusions, arena =>
    if position < arena.positions then
      match arena.liveAt? position with
      | none => fusePass steps (position + 1) fusions arena
      | some first =>
        match arena.nextLive? position with
        | none => (arena, fusions)
        | some second =>
          match arena.fusion? first second with
          | some fusion =>
            fusePass steps position (fusions + 1) (arena.applyFusion first second fusion)
          | none => fusePass steps (position + 1) fusions arena
    else (arena, fusions)

/-- Makes passes until one finds nothing to fuse, with the number of fusions made. -/
def fusePasses (stepsPerPass : Nat) : (passes fusions : Nat) → Arena → Arena × Nat
  | 0, fusions, arena => (arena, fusions)
  | passes + 1, fusions, arena =>
    let (fused, made) := fusePass stepsPerPass 0 0 arena
    if made = 0 then (fused, fusions)
    else fusePasses stepsPerPass passes (fusions + made) fused

/-- Fuses neighbouring instructions until nothing changes, compacts the arena and answers the
number of fusions. -/
def fuse (arena : Arena) : Arena × Nat :=
  let bound := arena.fusionBound
  let (fused, fusions) := fusePasses (arena.positions + bound) (bound + 1) 0 arena
  (fused.compact, fusions)

end Arena
end ScriptBytecode
