import ScriptBytecode.Proofs.TokenPositions
import ScriptBytecode.Proofs.UnitChanges

/-!
# Sessions of a code unit

A session writes functions into a code unit.  Every function keeps the lines that were written, so
what holds of every statement of a session holds of the lines of the functions.
-/

namespace ScriptBytecode

/-- A call of a code unit. -/
inductive UnitCall where
  | beginFunction (name : String)
  | label (name : String)
  | emit (statement : Statement)
  | native (parameters returns : UInt8) (hash : UInt64)
  | endFunction
deriving DecidableEq, Repr

namespace UnitCall

/-- Makes a call. -/
def run : UnitCall → UnitM Unit
  | .beginFunction name => CodeUnit.beginFunction name
  | .label name => CodeUnit.label name
  | .emit statement => do
    let _ ← CodeUnit.emit statement
  | .native parameters returns hash => do
    let _ ← CodeUnit.native parameters returns hash
  | .endFunction => CodeUnit.endFunction

/-- A call whose statement, if any, has operands of the kind its opcode takes. -/
def Emittable : UnitCall → Prop
  | .emit statement => statement.Emittable
  | _ => True

instance (call : UnitCall) : Decidable call.Emittable :=
  match call with
  | .emit statement => inferInstanceAs (Decidable statement.Emittable)
  | .beginFunction _ | .label _ | .native _ _ _ | .endFunction => .isTrue trivial

/-- A call whose statement, if any, has operands of the kind its opcode takes, and symbolic
targets. -/
def Symbolic : UnitCall → Prop
  | .emit statement => statement.Emittable ∧ statement.SymbolicTargets
  | _ => True

instance (call : UnitCall) : Decidable call.Symbolic :=
  match call with
  | .emit statement => inferInstanceAs (Decidable (statement.Emittable ∧ statement.SymbolicTargets))
  | .beginFunction _ | .label _ | .native _ _ _ | .endFunction => .isTrue trivial

end UnitCall

/-- A call makes the changes that its statement, if any, allows. -/
theorem UnitCall.changes
    {allowed : Statement → Prop} {call : UnitCall}
    (isAllowed : ∀ statement, call = .emit statement → allowed statement)
    {codeUnit : CodeUnit} :
    CodeUnit.Changes allowed codeUnit (stateAfter (call.run codeUnit)) := by
  cases call with
  | beginFunction name => exact CodeUnit.changes_beginFunction name
  | label name => exact CodeUnit.changes_label name
  | emit statement =>
      rw [run, stateAfter_ignore]
      exact CodeUnit.changes_emit (.statement (isAllowed statement rfl))
  | native parameters returns hash =>
      rw [run, stateAfter_ignore]
      exact CodeUnit.changes_native parameters returns hash
  | endFunction => exact CodeUnit.changes_endFunction

/-- The state that calls leave; a session goes on after a call that fails. -/
def CodeUnit.runCalls (calls : List UnitCall) : CodeUnit :=
  calls.foldl (fun codeUnit call => stateAfter (call.run codeUnit)) {}

namespace Statement

theorem native_emittable (parameters returns : UInt8) (index : UInt16) :
    (native parameters returns index).Emittable :=
  ⟨rfl, Nat.zero_lt_succ _⟩

theorem native_symbolicTargets (parameters returns : UInt8) (index : UInt16) :
    (native parameters returns index).SymbolicTargets :=
  ⟨by decide, by decide, by decide⟩

end Statement

/-! ## The lines of functions -/

/-- A function whose arena holds the given lines. -/
def FunctionCode.HasLines (function : FunctionCode) (lines : List Line) : Prop :=
  ∃ live : List Arena.Live,
    function.arena.Represents live ∧ live.map Prod.snd = lines.map Line.entry

/-- A function whose statements can be encoded and have a property. -/
def FunctionCode.Satisfies (property : Statement → Prop) (function : FunctionCode) : Prop :=
  ∃ lines, function.HasLines lines ∧ ∀ line ∈ lines, line.2.Encodable ∧ property line.2

/-- A code unit in whose functions all statements can be encoded and have a property. -/
structure CodeUnit.Satisfies (property : Statement → Prop) (codeUnit : CodeUnit) : Prop where
  finished : ∀ function ∈ codeUnit.finished, function.Satisfies property
  current : ∀ function, codeUnit.current = some function → function.Satisfies property

namespace FunctionCode.HasLines

variable {name : String} {arena : Arena} {lines : List Line}

theorem empty (name : String) : FunctionCode.HasLines { name } [] :=
  ⟨[], Arena.represents_empty, rfl⟩

theorem addLabel (hasLines : FunctionCode.HasLines ⟨name, arena⟩ lines) (label : String) :
    FunctionCode.HasLines ⟨name, arena.addLabel label⟩ lines := by
  obtain ⟨live, ⟨chain, order, nodup, inRange, tail, free, freeNodup⟩, isLines⟩ := hasLines
  exact ⟨live, ⟨chain, order, nodup, inRange, tail, free, freeNodup⟩, isLines⟩

theorem close (hasLines : FunctionCode.HasLines ⟨name, arena⟩ lines) :
    FunctionCode.HasLines ⟨name, arena.close⟩ lines := by
  obtain ⟨live, ⟨chain, order, nodup, inRange, tail, free, freeNodup⟩, isLines⟩ := hasLines
  exact ⟨live, ⟨chain, order, nodup, inRange, tail, free, freeNodup⟩, isLines⟩

/-- A statement that is appended makes a line with the pending labels. -/
theorem push (hasLines : FunctionCode.HasLines ⟨name, arena⟩ lines) (statement : Statement) :
    FunctionCode.HasLines
      ⟨name, (arena.push ⟨statement.fragment.bytes, statement.fragment.references, []⟩).2⟩
      (lines ++ [(arena.pending, statement)]) := by
  obtain ⟨live, represents, isLines⟩ := hasLines
  exact ⟨_, (represents.push _).1, by simp [isLines, Line.entry]⟩

theorem entries_eq
    {function : FunctionCode}
    (hasLines : function.HasLines lines) :
    function.arena.entries.toList = lines.map Line.entry := by
  obtain ⟨live, represents, isLines⟩ := hasLines
  rw [represents.entries_eq, isLines]

/-- Fusing makes lines of the lines of a function, and keeps the labels after them. -/
theorem fuse
    {function : FunctionCode}
    (hasLines : function.HasLines lines)
    (encodable : ∀ line ∈ lines, line.2.Encodable) :
    ∃ newLines, (CodeUnit.fuseFunction function).HasLines newLines ∧
      FusedLines lines newLines ∧
      (CodeUnit.fuseFunction function).arena.trailing = function.arena.trailing := by
  obtain ⟨live, represents, isLines⟩ := hasLines
  obtain ⟨others, fusedRepresents, fusion, trailing⟩ := represents.fuse
  obtain ⟨newLines, isNew, fused⟩ := fusion.lines isLines encodable
  exact ⟨newLines, ⟨others, fusedRepresents, isNew⟩, fused, trailing⟩

end FunctionCode.HasLines

namespace CodeUnit.Satisfies

variable {codeUnit : CodeUnit} {property : Statement → Prop}

theorem mono
    {other : Statement → Prop}
    (satisfies : codeUnit.Satisfies property)
    (implies : ∀ statement, property statement → other statement) :
    codeUnit.Satisfies other := by
  have function : ∀ function : FunctionCode, function.Satisfies property →
      function.Satisfies other := by
    rintro function ⟨lines, hasLines, holds⟩
    exact ⟨lines, hasLines, fun line member =>
      ⟨(holds line member).1, implies _ (holds line member).2⟩⟩
  exact ⟨fun other member => function other (satisfies.finished other member),
    fun other current => function other (satisfies.current other current)⟩

/-- A unit that changes only in its open function keeps a property if that function does. -/
theorem withCurrent
    (satisfies : codeUnit.Satisfies property)
    {function : FunctionCode}
    (holds : function.Satisfies property) :
    CodeUnit.Satisfies property { codeUnit with current := some function } := by
  refine ⟨satisfies.finished, ?_⟩
  rintro _ ⟨⟩
  exact holds

/-- The functions of a code unit keep a property of all the statements that may be emitted. -/
theorem change
    {allowed : Statement → Prop} {next : CodeUnit}
    (satisfies : codeUnit.Satisfies property)
    (change : Change allowed codeUnit next)
    (holds : ∀ statement, codeUnit.MayEmit allowed statement →
      statement.Emittable ∧ property statement) :
    next.Satisfies property := by
  cases change with
  | beginFunction name => exact satisfies.withCurrent ⟨[], .empty name, by simp⟩
  | label name function isOpen =>
      obtain ⟨lines, hasLines, linesHold⟩ := satisfies.current function isOpen
      exact satisfies.withCurrent ⟨lines, hasLines.addLabel name, linesHold⟩
  | emit statement mayEmit function isOpen fewCases =>
      obtain ⟨lines, hasLines, linesHold⟩ := satisfies.current function isOpen
      obtain ⟨emittable, holdsHere⟩ := holds statement mayEmit
      refine satisfies.withCurrent ⟨_, hasLines.push statement, ?_⟩
      rw [List.forall_mem_append, List.forall_mem_singleton]
      exact ⟨linesHold, ⟨emittable, fewCases⟩, holdsHere⟩
  | addNative hash => exact ⟨satisfies.finished, satisfies.current⟩
  | endFunction function isOpen =>
      refine ⟨?_, by rintro _ ⟨⟩⟩
      intro other member
      rcases Array.mem_push.mp member with earlier | rfl
      · exact satisfies.finished other earlier
      · obtain ⟨lines, hasLines, linesHold⟩ := satisfies.current function isOpen
        exact ⟨lines, hasLines.close, linesHold⟩

/-- The functions of a code unit keep symbolic targets. -/
theorem after
    (satisfies : codeUnit.Satisfies Statement.SymbolicTargets)
    {call : UnitCall}
    (symbolic : call.Symbolic) :
    (stateAfter (call.run codeUnit)).Satisfies Statement.SymbolicTargets := by
  have changes : Changes (fun statement => statement.Emittable ∧ statement.SymbolicTargets)
      codeUnit (stateAfter (call.run codeUnit)) := by
    refine UnitCall.changes ?_
    rintro statement rfl
    exact symbolic
  refine changes.keep (fun satisfies change => satisfies.change change ?_) satisfies
  rintro _ (symbolicHere | ⟨parameters, returns, -⟩)
  · exact symbolicHere
  · exact ⟨Statement.native_emittable parameters returns _,
      Statement.native_symbolicTargets parameters returns _⟩

/-- A session that uses symbolic targets leaves functions with symbolic targets. -/
theorem runCalls
    {calls : List UnitCall}
    (symbolic : ∀ call ∈ calls, call.Symbolic) :
    (CodeUnit.runCalls calls).Satisfies Statement.SymbolicTargets := by
  have general : ∀ codeUnit : CodeUnit, codeUnit.Satisfies Statement.SymbolicTargets →
      (calls.foldl (fun codeUnit call => stateAfter (call.run codeUnit)) codeUnit).Satisfies
        Statement.SymbolicTargets := by
    induction calls with
    | nil => exact fun _ satisfies => satisfies
    | cons call rest ih =>
        obtain ⟨callSymbolic, restSymbolic⟩ := List.forall_mem_cons.mp symbolic
        exact fun codeUnit satisfies =>
          ih restSymbolic _ (satisfies.after callSymbolic)
  exact general {} ⟨by simp, by simp⟩

end CodeUnit.Satisfies
end ScriptBytecode
