import ScriptBytecode.Proofs.StrayReferences

/-!
# Where references are patched

Finishing a build patches the references one after the other.  One that lies inside of a written
instruction lies in one page of the code.  So finishing can leave the pages only by a stray
reference, and it does so if it comes to one that can be resolved and lies outside of them.
-/

namespace ScriptBytecode

open Builder

/-! ## Out of bounds -/

namespace Fixup

theorem operand_ne_referenceOutOfBounds
    (symbols : Array FunctionSymbols)
    (fixup : Fixup) :
    fixup.operand symbols ≠ .error .referenceOutOfBounds := by
  unfold operand
  dsimp only
  repeat' split
  all_goals rintro ⟨⟩

/-- A reference that can be resolved, but does not lie in one page of the code. -/
def OutOfBounds (symbols : Array FunctionSymbols) (codeSize : Nat) (fixup : Fixup) : Prop :=
  fixup.Resolvable symbols ∧ inPage codeSize fixup.address fixup.kind.width = false

theorem resolve_outOfBounds_iff
    (symbols : Array FunctionSymbols)
    (code : Bytes)
    (fixup : Fixup) :
    fixup.resolve symbols code = .error .referenceOutOfBounds ↔
      fixup.OutOfBounds symbols code.size := by
  unfold resolve OutOfBounds
  cases found : fixup.operand symbols with
  | error error =>
      have other : error ≠ .referenceOutOfBounds :=
        fun same => operand_ne_referenceOutOfBounds symbols fixup (same ▸ found)
      simp [not_resolvable found, other]
  | ok operand =>
      have resolvable : fixup.Resolvable symbols := ⟨operand, found⟩
      cases inPages : inPage code.size fixup.address fixup.kind.width with
      | true => simp [patch, length_operand found, inPages]
      | false => simp [patch, length_operand found, inPages, resolvable]

/-- Resolving references in order leaves the pages at the first one that is not patched, if that one
can be resolved. -/
theorem foldlM_resolve_outOfBounds_iff
    (symbols : Array FunctionSymbols)
    (fixups : List Fixup)
    (code : Bytes) :
    fixups.foldlM (Fixup.resolve symbols) code = .error .referenceOutOfBounds ↔
      ∃ before fixup after, fixups = before ++ fixup :: after ∧
        (∀ earlier ∈ before, earlier.Patchable symbols code.size) ∧
        fixup.OutOfBounds symbols code.size := by
  induction fixups generalizing code with
  | nil => simp [pure, Except.pure]
  | cons first rest ih =>
      rw [List.foldlM_cons, exists_first_cons_iff, ← resolve_outOfBounds_iff]
      rcases resolve_iff_patchable symbols code first with
        ⟨patchable, next, resolved, sameSize⟩ | ⟨unpatchable, error, failed⟩
      · have later := ih next
        rw [sameSize] at later
        rw [resolved, and_iff_right patchable, or_iff_right (by rintro ⟨⟩)]
        exact later
      · rw [failed, or_iff_left fun later => unpatchable later.1]
        rfl

end Fixup

/-- What lies inside of an instruction lies in one page of the code. -/
theorem WrittenInstruction.inPage_of_holds
    {instruction : WrittenInstruction} {code : Bytes}
    (stands : instruction.StandsIn code)
    {fixup : Fixup}
    (holds : instruction.Holds fixup) :
    Fixup.inPage code.size fixup.address fixup.kind.width = true := by
  obtain ⟨notBefore, notBehind⟩ := holds
  have inCode := stands.inCode
  have onePage := stands.onePage
  have width := fixup.kind.width_pos
  have inPages : fixup.address / pageLength < pageCount code.size :=
    Paged.lt_pageCount_of_lt (by omega)
  have samePage : fixup.address % pageLength + fixup.kind.width ≤ pageLength := by
    unfold pageLength at onePage ⊢
    omega
  exact decide_eq_true ⟨inPages, samePage⟩

namespace BuildRecord

/-- The references of a build, in the order in which they are resolved. -/
def fixups (record : BuildRecord) : List Fixup :=
  (record.builder.settled ++ record.builder.recent).toList

/-- What finishing a build does with the references of it. -/
structure FinishesInCode (record : BuildRecord) : Prop where
  /-- The instructions stand in the code, each in one page. -/
  stands : ∀ instruction ∈ record.written, instruction.StandsIn record.builder.code
  /-- A reference that is not a stray one lies in a page and inside of a written instruction. -/
  held : record.builder.current = none → ∀ fixup ∈ record.fixups, fixup ∉ record.strays →
    Fixup.inPage record.builder.code.size fixup.address fixup.kind.width = true ∧
      ∃ instruction ∈ record.written, instruction.Holds fixup
  /-- A build that is finished has patched every reference inside of a page. -/
  patched : ∀ linked, record.builder.finish = .ok linked →
    linked.length = record.builder.code.size ∧ ∀ fixup ∈ record.fixups,
      Fixup.inPage record.builder.code.size fixup.address fixup.kind.width = true
  /-- Finishing leaves the pages exactly if the first reference that cannot be patched is a stray
  one outside of the pages, to a target that is known. -/
  outOfBounds : record.builder.finish = .error .referenceOutOfBounds ↔
    record.builder.current = none ∧
      ∃ before fixup after, record.fixups = before ++ fixup :: after ∧
        (∀ earlier ∈ before,
          earlier.Patchable record.builder.functions record.builder.code.size) ∧
        fixup.OutOfBounds record.builder.functions record.builder.code.size ∧
        fixup ∈ record.strays

variable {record : BuildRecord}

theorem held_of_accounted
    (accounted : Accounted record.written record.strays record.builder)
    (outside : record.builder.current = none)
    {fixup : Fixup}
    (member : fixup ∈ record.fixups)
    (notStray : fixup ∉ record.strays) :
    Fixup.inPage record.builder.code.size fixup.address fixup.kind.width = true ∧
      ∃ instruction ∈ record.written, instruction.Holds fixup := by
  rcases accounted with inside | between
  · obtain ⟨function, isCurrent, -⟩ := inside.begun
    rw [outside] at isCurrent
    cases isCurrent
  · rcases between.fixups fixup (Array.mem_toList_iff.mp member) with
      isStray | ⟨instruction, isWritten, holds⟩
    · exact absurd isStray notStray
    · exact ⟨WrittenInstruction.inPage_of_holds (between.stands instruction isWritten) holds,
        instruction, isWritten, holds⟩

theorem current_of_finish
    {linked : LinkedCode}
    (finished : record.builder.finish = .ok linked) :
    record.builder.current = none := by
  cases current : record.builder.current with
  | none => rfl
  | some function => simp [Builder.finish, current] at finished

theorem finish_outOfBounds_iff :
    record.builder.finish = .error .referenceOutOfBounds ↔
      record.builder.current = none ∧
        ∃ before fixup after, record.fixups = before ++ fixup :: after ∧
          (∀ earlier ∈ before,
            earlier.Patchable record.builder.functions record.builder.code.size) ∧
          fixup.OutOfBounds record.builder.functions record.builder.code.size := by
  cases outside : record.builder.current with
  | some function => simp [Builder.finish, outside]
  | none =>
      rw [Builder.finish_eq_map outside, map_eq_error_iff, Fixup.foldlM_resolve_outOfBounds_iff,
        and_iff_right rfl]
      rfl

/-- Finishing a build patches references only inside of pages and, but for the stray ones, inside of
instructions that were written.  It leaves the pages exactly if it comes to a stray reference that
can be resolved and lies outside of them. -/
theorem finishesInCode_run
    {calls : List RawCall}
    (inRange : ∀ call ∈ calls, call.InRange) :
    (run calls).builder = Builder.after {} calls ∧ FinishesInCode (run calls) := by
  have accounted := accounted_run inRange
  refine ⟨builder_run calls, ?_, fun outside _ => held_of_accounted accounted outside, ?_, ?_⟩
  · rcases accounted with inside | between
    · exact inside.stands
    · exact between.stands
  · intro linked finished
    have patchable := (exists_finish_iff (current_of_finish finished)).mp ⟨linked, finished⟩
    exact ⟨(shape_of_finish finished).1,
      fun fixup member => (patchable fixup (Array.mem_toList_iff.mp member)).2⟩
  · rw [finish_outOfBounds_iff]
    refine and_congr_right fun outside => ?_
    constructor
    · rintro ⟨before, fixup, after, divided, earlier, outOfBounds⟩
      refine ⟨before, fixup, after, divided, earlier, outOfBounds, ?_⟩
      by_contra notStray
      have member : fixup ∈ (run calls).fixups := divided ▸ by simp
      exact Bool.false_ne_true (outOfBounds.2.symm.trans
        (held_of_accounted accounted outside member notStray).1)
    · rintro ⟨before, fixup, after, divided, earlier, outOfBounds, -⟩
      exact ⟨before, fixup, after, divided, earlier, outOfBounds⟩

/-- A function with a label and a further call in it. -/
def labelled (call : RawCall) : List RawCall :=
  [.beginFunction "f", .addLabel "top", call, .endFunction]

theorem labelled_inRange
    {call : RawCall}
    (inRange : call.InRange) :
    ∀ other ∈ labelled call, other.InRange := by
  have inside : ∀ other ∈ [call, .endFunction], other.InRange :=
    List.forall_mem_cons.mpr ⟨inRange, List.forall_mem_singleton.mpr trivial⟩
  exact List.forall_mem_cons.mpr ⟨trivial, List.forall_mem_cons.mpr ⟨trivial, inside⟩⟩

/-- A jump to the begin of its function holds its reference. -/
theorem finishesInCode_run_jump :
    ∃ record : BuildRecord,
      record.builder = Builder.after {}
        (labelled (.instruction #[Opcode.j.toByte, 0, 0] [⟨1, .relative, "top"⟩])) ∧
      record.written = [⟨0, #[Opcode.j.toByte, 0, 0]⟩] ∧ record.strays = [] ∧
      record.fixups = [⟨"f", .relative, "top", 1⟩] ∧ FinishesInCode record := by
  have fits : ReferencesFit #[Opcode.j.toByte, 0, 0] [⟨1, .relative, "top"⟩] :=
    ⟨List.forall_mem_singleton.mpr (by decide), List.pairwise_singleton _ _⟩
  have inRange : (RawCall.instruction #[Opcode.j.toByte, 0, 0]
      [⟨1, .relative, "top"⟩]).InRange := fits
  obtain ⟨isBuilder, finishes⟩ := finishesInCode_run (labelled_inRange inRange)
  exact ⟨_, isBuilder, by decide +kernel, by decide +kernel, by decide +kernel, finishes⟩

/-! References to the label that are recorded outside of instructions, or for an instruction that is
too long. -/

section Strays

/-- The builder before that call. -/
def atTop : Builder := { current := some { name := "f", pending := ["top"] } }

theorem after_addLabel : Builder.after {} [.beginFunction "f", .addLabel "top"] = atTop := by
  simp [Builder.after, next, RawCall.run, beginFunction, addLabel, Bind.bind, EStateM.bind, pure,
    EStateM.pure, OpenFunction.hasLabel, atTop]

/-- An instruction that begins with the reference. -/
def referToTop (bytes : Bytes) : RawCall := .instruction bytes [⟨0, .relative, "top"⟩]

theorem next_referToTop
    {bytes : Bytes}
    (tooLong : instructionLimit ≤ bytes.size)
    (zeros : bytes.extract 0 2 = #[0, 0]) :
    atTop.next (referToTop bytes) =
      { atTop with buffer := bytes, recent := #[⟨"f", .relative, "top", 0⟩] } := by
  have holdsReference : 2 ≤ bytes.size := Nat.le_trans (by decide) tooLong
  have rejected := instruction_tooLong ⟨bytes, [⟨0, .relative, "top"⟩]⟩
    ⟨Nat.le_refl 0, zeros, holdsReference⟩ tooLong atTop rfl rfl
  simp only [referToTop, next, RawCall.run, Bind.bind, EStateM.bind, rejected]
  rfl

theorem referToTop_inRange
    {bytes : Bytes}
    (tooLong : instructionLimit ≤ bytes.size) :
    (referToTop bytes).InRange where
  inside := List.forall_mem_singleton.mpr (Nat.le_trans (by decide) tooLong)
  apart := List.pairwise_singleton _ _

theorem finish_of_recent
    (buffer : Bytes) :
    (next { atTop with buffer, recent := #[⟨"f", .relative, "top", 0⟩] } .endFunction).finish =
      .error .referenceOutOfBounds := by
  have outOfBounds : Fixup.OutOfBounds #[⟨"f", 0, [("top", 0)]⟩] 0 ⟨"f", .relative, "top", 0⟩ :=
    ⟨⟨[254, 255], by rfl⟩, by decide⟩
  exact (@finish_outOfBounds_iff ⟨_, [], []⟩).mpr
    ⟨rfl, [], _, [], rfl, List.forall_mem_nil _, outOfBounds⟩

end Strays

/-- Finishing leaves the pages, which are none, whether the reference was recorded outside of
instructions or for an instruction that was rejected. -/
theorem finish_labelled :
    (∀ call ∈ labelled (referToTop oversized), call.InRange) ∧
      (∀ call ∈ labelled (.reference .relative "top"), call.InRange) ∧
      (Builder.after {} (labelled (referToTop oversized))).finish = .error .referenceOutOfBounds ∧
      (Builder.after {} (labelled (.reference .relative "top"))).finish =
        .error .referenceOutOfBounds := by
  have isTooLong := Nat.le_of_eq size_oversized.symm
  have afterCall : ∀ call,
      Builder.after {} (labelled call) = (atTop.next call).next .endFunction := by
    intro call
    rw [← after_addLabel]
    rfl
  refine ⟨labelled_inRange (referToTop_inRange isTooLong), labelled_inRange trivial, ?_, ?_⟩
  · rw [afterCall, next_referToTop isTooLong extract_oversized]
    exact finish_of_recent _
  · rw [afterCall]
    exact finish_of_recent _

end BuildRecord
end ScriptBytecode
