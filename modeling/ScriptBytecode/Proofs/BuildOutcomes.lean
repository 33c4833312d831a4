import Mathlib.Tactic.SplitIfs
import ScriptBytecode.Builder.Basic

/-!
# Outcomes of builder calls

A builder call is refused, and leaves the builder as it is, or it succeeds with a state that is told
here once for each call.  Only the end of an instruction has a third outcome: an instruction that is
empty or too long is given up.
-/

namespace ScriptBytecode

/-- An error by which an instruction is given up at its end. -/
inductive Error.Rejects : Error → Prop
  | empty : Rejects (.misplaced .emptyInstruction)
  | tooLong (size : Nat) : Rejects (.instructionTooLong size)

namespace Builder

/-- No instruction is begun. -/
def Between (builder : Builder) : Prop :=
  ∀ function, builder.current = some function → function.inInstruction = false

/-- A call that fails and leaves the builder as it is, without giving up an instruction. -/
def Refuses {α : Type} (builder : Builder) (action : BuildM α) : Prop :=
  ∃ error : Error, ¬error.Rejects ∧ action builder = .error error builder

theorem Refuses.failed
    {α : Type} {builder after : Builder} {action : BuildM α} {error : Error}
    (refuses : builder.Refuses action)
    (failed : action builder = .error error after) :
    ¬error.Rejects ∧ after = builder := by
  obtain ⟨found, notRejected, refused⟩ := refuses
  cases refused.symm.trans failed
  exact ⟨notRejected, rfl⟩

variable (builder : Builder)

theorem beginFunction_outcomes (name : String) :
    builder.Refuses (beginFunction name) ∨
      builder.current = none ∧ builder.functions.any (·.name == name) = false ∧
        beginFunction name builder = .ok () { builder with current := some { name } } := by
  unfold Refuses beginFunction
  split_ifs with isOpen isUsed
  · exact .inl ⟨_, by rintro ⟨⟩, rfl⟩
  · exact .inl ⟨_, by rintro ⟨⟩, rfl⟩
  · exact .inr ⟨Option.not_isSome_iff_eq_none.mp isOpen, Bool.eq_false_iff.mpr isUsed, rfl⟩

theorem endFunction_outcomes :
    builder.Refuses endFunction ∨
      ∃ function, builder.current = some function ∧ function.inInstruction = false ∧
        endFunction builder =
          .ok ()
            { builder with
              functions := builder.functions.push (function.close builder.code.size)
              current := none } := by
  unfold Refuses endFunction
  cases builder.current with
  | none => exact .inl ⟨_, by rintro ⟨⟩, rfl⟩
  | some function =>
      dsimp only
      split_ifs with isBegun
      · exact .inl ⟨_, by rintro ⟨⟩, rfl⟩
      · exact .inr ⟨function, rfl, Bool.eq_false_iff.mpr isBegun, rfl⟩

theorem addLabel_outcomes (label : String) :
    builder.Refuses (addLabel label) ∨
      ∃ function, builder.current = some function ∧ function.inInstruction = false ∧
        label.isEmpty = false ∧ function.hasLabel label = false ∧
        addLabel label builder =
          .ok ()
            { builder with
              current := some { function with pending := function.pending ++ [label] } } := by
  unfold Refuses addLabel
  split_ifs with isEmpty
  · exact .inl ⟨_, by rintro ⟨⟩, rfl⟩
  · cases builder.current with
    | none => exact .inl ⟨_, by rintro ⟨⟩, rfl⟩
    | some function =>
        dsimp only
        split_ifs with isBegun isUsed
        · exact .inl ⟨_, by rintro ⟨⟩, rfl⟩
        · exact .inl ⟨_, by rintro ⟨⟩, rfl⟩
        · exact .inr ⟨function, rfl, Bool.eq_false_iff.mpr isBegun, Bool.eq_false_iff.mpr isEmpty,
            Bool.eq_false_iff.mpr isUsed, rfl⟩

theorem beginInstruction_outcomes :
    builder.Refuses beginInstruction ∨
      ∃ function, builder.current = some function ∧ function.inInstruction = false ∧
        beginInstruction builder =
          .ok ()
            { builder with
              buffer := #[]
              settled := builder.settled ++ builder.recent
              recent := #[]
              current := some { function with inInstruction := true } } := by
  unfold Refuses beginInstruction
  cases builder.current with
  | none => exact .inl ⟨_, by rintro ⟨⟩, rfl⟩
  | some function =>
      dsimp only
      split_ifs with isBegun
      · exact .inl ⟨_, by rintro ⟨⟩, rfl⟩
      · exact .inr ⟨function, rfl, Bool.eq_false_iff.mpr isBegun, rfl⟩

theorem reference_outcomes (kind : ReferenceKind) (target : String) :
    builder.Refuses (reference kind target) ∨
      ∃ function, builder.current = some function ∧
        reference kind target builder =
          .ok ()
            { builder with
              buffer := builder.buffer ++ Array.replicate kind.width 0
              recent := builder.recent.push
                ⟨function.name, kind, target, builder.code.size + builder.buffer.size⟩ } := by
  unfold Refuses reference
  cases builder.current with
  | none => exact .inl ⟨_, by rintro ⟨⟩, rfl⟩
  | some function => exact .inr ⟨function, rfl, rfl⟩

theorem endInstruction_outcomes :
    (builder.Between ∧ builder.Refuses endInstruction) ∨
      ∃ function, builder.current = some function ∧ function.inInstruction = true ∧
        ((∃ error : Error, error.Rejects ∧
            endInstruction builder =
              .error error
                { builder with current := some { function with inInstruction := false } }) ∨
          builder.buffer.size < instructionLimit ∧
            endInstruction builder = .ok () (builder.place function)) := by
  unfold Between Refuses endInstruction
  cases builder.current with
  | none => exact .inl ⟨by rintro _ ⟨⟩, _, by rintro ⟨⟩, rfl⟩
  | some function =>
      cases isBegun : function.inInstruction with
      | false =>
          simp only [isBegun, Bool.not_false, if_true]
          exact .inl ⟨by rintro _ ⟨⟩; exact isBegun, _, by rintro ⟨⟩, rfl⟩
      | true =>
          refine .inr ⟨function, rfl, isBegun, ?_⟩
          simp only [isBegun, Bool.not_true, Bool.false_eq_true, if_false]
          split_ifs with isEmpty tooLong
          · exact .inl ⟨_, .empty, rfl⟩
          · exact .inl ⟨_, .tooLong _, rfl⟩
          · exact .inr ⟨Nat.not_le.mp tooLong, rfl⟩

end Builder
end ScriptBytecode
