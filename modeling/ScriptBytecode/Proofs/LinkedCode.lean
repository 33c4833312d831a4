import ScriptBytecode.Proofs.Linking

/-!
# The instructions of linked code

A run of builder steps places statements one after the other.  When the build is finished, the code
consists of the resolved instruction of every statement at the address that was answered for it,
and of the instructions that fill the page tails in between.
-/

namespace ScriptBytecode

open Instruction Statement Builder

/-- A statement that was placed: in which function, after code of which size, and where. -/
structure Placement where
  function : String
  before : Nat
  address : Nat
  statement : Statement
deriving DecidableEq, Repr

namespace Placement

variable {start : Nat} {placements : List Placement} {placement : Placement}
    {functions : Array FunctionSymbols} {function : String}

/-- The bytes of a placed statement. -/
def bytes (placement : Placement) : Bytes :=
  placement.statement.fragment.bytes

/-- The fixups that are recorded for a placed statement. -/
def fixups (placement : Placement) : List Fixup :=
  placement.statement.fragment.references.map (fixupOf placement.function placement.address)

/-- The instruction that a placed statement is linked to. -/
def instruction (functions : Array FunctionSymbols) (placement : Placement) : Instruction :=
  placement.statement.resolved placement.address
    (labelOperand functions placement.function placement.address) (functionOperand functions)

/-- Placements that follow each other from code of a given size on. -/
def Laid : (start : Nat) → List Placement → Prop
  | _, [] => True
  | start, placement :: rest =>
    placement.before = start ∧
      placement.address = addressFor start placement.bytes ∧
      placement.statement.Emittable ∧
      placement.statement.caseCount ≤ maxSwitchCases ∧
      Laid (placement.address + placement.bytes.size) rest

/-- The code of placements before it is linked. -/
def codeBefore : List Placement → Bytes
  | [] => #[]
  | placement :: rest =>
    gap placement.before placement.bytes ++ placement.bytes ++ codeBefore rest

/-- The instructions of linked placements and of the page tails before them. -/
def linked (functions : Array FunctionSymbols) : List Placement → List Instruction
  | [] => []
  | placement :: rest =>
    gapInstructions placement.before placement.bytes ++
      placement.instruction functions :: linked functions rest

/-- Every reference of the placements can be resolved. -/
def Resolvable (functions : Array FunctionSymbols) (placements : List Placement) : Prop :=
  ∀ placement ∈ placements, ∀ fixup ∈ placement.fixups, fixup.Resolvable functions

/-- The placements of the steps of a session, from a function and a size of the code on. -/
def ofSteps : (function : String) → (size : Nat) → List BuildStep → List Placement
  | _, _, [] => []
  | _, size, (.beginFunction name, _) :: rest => ofSteps name size rest
  | function, size, (.emit statement, address) :: rest =>
    ⟨function, size, address, statement⟩ ::
      ofSteps function (address + statement.fragment.bytes.size) rest
  | function, size, (.addLabel _, _) :: rest => ofSteps function size rest
  | function, size, (.endFunction, _) :: rest => ofSteps function size rest

/-- A placed statement was emitted in the session. -/
theorem mem_of_mem_ofSteps
    {size : Nat} {steps : List BuildStep}
    (member : placement ∈ ofSteps function size steps) :
    (.emit placement.statement, placement.address) ∈ steps := by
  induction steps generalizing function size with
  | nil => cases member
  | cons step rest ih =>
      obtain ⟨call, answer⟩ := step
      cases call with
      | emit statement =>
          rcases List.mem_cons.mp member with rfl | inRest
          · exact List.mem_cons_self
          · exact List.mem_cons_of_mem _ (ih inRest)
      | _ => exact List.mem_cons_of_mem _ (ih member)

section Instruction

variable (functions : Array FunctionSymbols) (placement : Placement)

@[simp] theorem ip_instruction : (placement.instruction functions).ip = placement.address :=
  ip_resolved ..

@[simp] theorem size_instruction :
    (placement.instruction functions).size = placement.bytes.size :=
  size_resolved ..

/-- Filling in the references of a placed statement gives its instruction. -/
theorem fillIn_bytes :
    fillIn (labelOperand functions placement.function placement.address)
      (functionOperand functions) placement.bytes placement.statement.fragment.references =
      (placement.instruction functions).bytes :=
  fillIn_fragment ..

end Instruction

/-- A placed statement is short enough for a page. -/
theorem size_bytes_lt
    (emittable : placement.statement.Emittable)
    (fewCases : placement.statement.caseCount ≤ maxSwitchCases) :
    placement.bytes.size < instructionLimit :=
  size_fragment_lt emittable.nameFits fewCases

/-- The fixups of one placement are resolved exactly when each of them can be, and its bytes become
those of its instruction. -/
theorem foldlM_resolve_fixups
    (emittable : placement.statement.Emittable)
    (fewCases : placement.statement.caseCount ≤ maxSwitchCases)
    (functions : Array FunctionSymbols)
    (before after : Bytes)
    (place : before.size = placement.address)
    (placed : placement.address = addressFor placement.before placement.bytes)
    (code : Bytes) :
    placement.fixups.foldlM (Fixup.resolve functions) (before ++ placement.bytes ++ after) =
        .ok code ↔
      (∀ fixup ∈ placement.fixups, fixup.Resolvable functions) ∧
        before ++ (placement.instruction functions).bytes ++ after = code := by
  have short := size_bytes_lt emittable fewCases
  have samePage : before.size % pageLength + placement.bytes.size ≤ pageLength := by
    have fits := addressFor_mod_add_le placement.before short
    rw [place, placed]
    omega
  have folded := foldlM_resolve_references functions placement.function before placement.bytes
    after samePage placement.statement.fragment.references
    placement.statement.fragment_placeholders.operand_le code
  rw [place, fillIn_bytes] at folded
  rw [fixups, folded, List.forall_mem_map]

/-- All fixups of placements are resolved exactly when each of them can be, and the code becomes
that of the linked instructions. -/
theorem foldlM_resolve
    (functions : Array FunctionSymbols)
    (before : Bytes)
    (laid : Laid before.size placements)
    (code : Bytes) :
    (placements.flatMap fixups).foldlM (Fixup.resolve functions)
        (before ++ codeBefore placements) = .ok code ↔
      Resolvable functions placements ∧
        before ++ codeOf (linked functions placements) = code := by
  induction placements generalizing before with
  | nil => simp [codeBefore, linked, codeOf, Resolvable, pure, Except.pure]
  | cons placement rest ih =>
      obtain ⟨start, placed, emittable, fewCases, later⟩ := laid
      have place : (before ++ gap placement.before placement.bytes).size =
          placement.address := by
        rw [Array.size_append, placed, start, addressFor]
      have first := foldlM_resolve_fixups emittable fewCases functions
        (before ++ gap placement.before placement.bytes) (codeBefore rest) place
        (by rw [placed, start])
      have linkedFirst : (before ++ gap placement.before placement.bytes ++
          (placement.instruction functions).bytes).size =
          placement.address + placement.bytes.size := by
        rw [Array.size_append, place]
        exact congrArg _ (placement.size_instruction functions)
      have second := ih (before ++ gap placement.before placement.bytes ++
        (placement.instruction functions).bytes) (by rwa [linkedFirst])
      have divided : before ++ codeBefore (placement :: rest) =
          before ++ gap placement.before placement.bytes ++ placement.bytes ++
            codeBefore rest := by
        simp only [codeBefore, Array.append_assoc]
      have joined : before ++ codeOf (linked functions (placement :: rest)) =
          before ++ gap placement.before placement.bytes ++
            (placement.instruction functions).bytes ++ codeOf (linked functions rest) := by
        simp only [linked, codeOf_append, codeOf_gapInstructions, codeOf, Array.append_assoc]
      have resolvable : Resolvable functions (placement :: rest) ↔
          (∀ fixup ∈ placement.fixups, fixup.Resolvable functions) ∧
            Resolvable functions rest :=
        List.forall_mem_cons
      rw [List.flatMap_cons, List.foldlM_append, divided, joined, resolvable]
      cases folded : placement.fixups.foldlM (Fixup.resolve functions)
          (before ++ gap placement.before placement.bytes ++ placement.bytes ++
            codeBefore rest) with
      | error error =>
          have unresolvable : ¬∀ fixup ∈ placement.fixups, fixup.Resolvable functions := by
            intro all
            rw [(first _).mpr ⟨all, rfl⟩] at folded
            cases folded
          simp [bind, Except.bind, unresolvable]
      | ok resolved =>
          obtain ⟨all, rfl⟩ := (first _).mp folded
          rw [and_iff_right all]
          exact second

/-- The instructions of linked code stand at consecutive addresses. -/
theorem consecutive_linked
    (functions : Array FunctionSymbols)
    (laid : Laid start placements) :
    Consecutive start (linked functions placements) := by
  induction placements generalizing start with
  | nil => trivial
  | cons placement rest ih =>
      obtain ⟨rfl, placed, _, _, later⟩ := laid
      refine (consecutive_append _ _ _).mpr ⟨consecutive_gapInstructions _ _, ?_, ?_⟩
      · rw [ip_instruction, placed, codeOf_gapInstructions, addressFor]
      · rw [stop, ip_instruction, size_instruction]
        exact ih later

/-- What is known of one placement among those that follow each other. -/
theorem Laid.of_mem
    (laid : Laid start placements)
    (member : placement ∈ placements) :
    placement.address = addressFor placement.before placement.bytes ∧
      placement.statement.Emittable ∧ placement.statement.caseCount ≤ maxSwitchCases := by
  induction placements generalizing start with
  | nil => cases member
  | cons head rest ih =>
      obtain ⟨rfl, placed, emittable, fewCases, later⟩ := laid
      rcases List.mem_cons.mp member with rfl | inRest
      · exact ⟨placed, emittable, fewCases⟩
      · exact ih later inRest

/-- The instruction of a placement is among the linked ones. -/
theorem instruction_mem_linked
    (functions : Array FunctionSymbols)
    (member : placement ∈ placements) :
    placement.instruction functions ∈ linked functions placements := by
  induction placements with
  | nil => cases member
  | cons head rest ih =>
      rcases List.mem_cons.mp member with rfl | inRest
      · exact List.mem_append_right _ List.mem_cons_self
      · exact List.mem_append_right _ (List.mem_cons_of_mem _ (ih inRest))

/-- The address of a function that a resolved call names can be stored. -/
theorem functionOperand_lt
    (resolvable : ∀ fixup ∈ placement.fixups, fixup.Resolvable functions)
    (isCall : placement.statement = .call function) :
    (functionOperand functions function).toNat < 2 ^ 24 := by
  have member : fixupOf placement.function placement.address ⟨1, .absolute, function⟩ ∈
      placement.fixups := by
    rw [fixups, isCall]
    exact List.mem_singleton_self _
  obtain ⟨operand, found⟩ := resolvable _ member
  obtain ⟨symbols, known, near, _⟩ := (Fixup.operand_absolute_iff rfl).mp found
  simp only [fixupOf] at known
  simp only [functionOperand, startOf, known, Option.map_some, Option.getD_some,
    UInt32.toNat_ofNat']
  unfold maxCallTarget at near
  omega

/-- The instructions of linked code are well formed. -/
theorem linked_wellFormed
    (laid : Laid start placements)
    (resolvable : Resolvable functions placements) :
    ∀ instruction ∈ linked functions placements, instruction.WellFormed := by
  induction placements generalizing start with
  | nil => simp [linked]
  | cons placement rest ih =>
      obtain ⟨_, _, emittable, fewCases, later⟩ := laid
      obtain ⟨first, others⟩ := List.forall_mem_cons.mp resolvable
      intro instruction member
      rcases List.mem_append.mp member with inGap | inRest
      · exact gapInstructions_wellFormed _ _ instruction inGap
      · rcases List.mem_cons.mp inRest with rfl | inRest
        · exact resolved_wellFormed emittable fewCases _ _ _
            (fun function isCall => functionOperand_lt first isCall)
        · exact ih later others instruction inRest

/-! ## The placements of a run -/

section Run

variable {builder last : Builder} {steps : List BuildStep}

/-- The steps of a run lay out their placements one after the other. -/
theorem laid_ofSteps
    (run : Steps builder steps last)
    (emittable : ∀ step ∈ steps, step.1.Emittable)
    (function : String) :
    Laid builder.code.size (ofSteps function builder.code.size steps) := by
  induction run generalizing function with
  | nil => trivial
  | @cons state next last call answer steps step rest ih =>
      have restEmittable : ∀ step ∈ steps, step.1.Emittable :=
        fun other member => emittable other (List.mem_cons_of_mem _ member)
      have later := ih restEmittable
      cases step with
      | emit statement opened current fewCases =>
          refine ⟨rfl, rfl, emittable (.emit statement, _) List.mem_cons_self, fewCases, ?_⟩
          have size : (state.afterPlacing opened statement.fragment).code.size =
              addressFor state.code.size statement.fragment.bytes +
                statement.fragment.bytes.size := by
            simp only [afterPlacing, addressFor, Array.size_append]
          have laid := later function
          rwa [size] at laid
      | beginFunction name outside fresh => exact later name
      | addLabel label opened current notEmpty fresh => exact later function
      | endFunction opened current => exact later function

/-- The steps of a run add the code and the fixups of their placements. -/
theorem code_ofSteps
    (run : Steps builder steps last)
    (function : String)
    (inFunction : ∀ opened, builder.current = some opened → opened.name = function) :
    last.code = builder.code ++ codeBefore (ofSteps function builder.code.size steps) ∧
      (last.settled ++ last.recent).toList = (builder.settled ++ builder.recent).toList ++
        (ofSteps function builder.code.size steps).flatMap fixups := by
  induction run generalizing function with
  | nil => simp [ofSteps, codeBefore]
  | @cons state next last call answer steps step rest ih =>
      cases step with
      | emit statement opened current fewCases =>
          have size : (state.afterPlacing opened statement.fragment).code.size =
              addressFor state.code.size statement.fragment.bytes +
                statement.fragment.bytes.size := by
            simp only [afterPlacing, addressFor, Array.size_append]
          obtain ⟨code, fixed⟩ := ih function (by
            rintro _ ⟨⟩
            exact inFunction opened current)
          rw [size] at code fixed
          rw [code, fixed]
          refine ⟨?_, ?_⟩
          · simp only [afterPlacing, ofSteps, codeBefore, bytes, Array.append_assoc]
          · simp [afterPlacing, ofSteps, fixups, inFunction opened current]
      | beginFunction name outside fresh =>
          exact ih name (by rintro _ ⟨⟩; rfl)
      | addLabel label opened current notEmpty fresh =>
          exact ih function (by
            rintro _ ⟨⟩
            exact inFunction opened current)
      | endFunction opened current =>
          exact ih function (by rintro _ ⟨⟩)

end Run

end Placement

namespace Builder

variable {builder : Builder} {steps : List BuildStep}

/-- The linked code of instructions. -/
def linkedCode (functions : Array FunctionSymbols) (instructions : List Instruction) :
    LinkedCode where
  pages := Paged.ofArray (codeOf instructions)
  length := (codeOf instructions).size
  functions := functions.map fun symbols => (symbols.name, symbols.start)

/-- When a build can be finished, and what it gives: the functions are ended, every reference is
resolved, and the code is that of the linked instructions. -/
theorem Steps.finish_eq_ok_iff
    (run : Steps {} steps builder)
    (emittable : ∀ step ∈ steps, step.1.Emittable)
    (result : LinkedCode) :
    builder.finish = .ok result ↔
      builder.current = none ∧
        Placement.Resolvable builder.functions (Placement.ofSteps "" 0 steps) ∧
        linkedCode builder.functions
          (Placement.linked builder.functions (Placement.ofSteps "" 0 steps)) = result := by
  obtain ⟨code, fixed⟩ := Placement.code_ofSteps run "" (by rintro _ ⟨⟩)
  have laid := Placement.laid_ofSteps run emittable ""
  have folded := Placement.foldlM_resolve builder.functions #[] laid
  simp only [Array.size_empty, Array.empty_append] at code folded laid
  simp only [Array.append_empty, Array.toList_empty, List.nil_append, Array.size_empty] at fixed
  unfold finish
  cases current : builder.current with
  | some function => simp
  | none =>
      simp only [Option.isSome_none, Bool.false_eq_true, if_false, true_and]
      rw [← Array.foldlM_toList, fixed, code]
      cases resolved : List.foldlM (Fixup.resolve builder.functions)
          (Placement.codeBefore (Placement.ofSteps "" 0 steps))
          ((Placement.ofSteps "" 0 steps).flatMap Placement.fixups) with
      | error error =>
          have unresolvable : ¬Placement.Resolvable builder.functions
              (Placement.ofSteps "" 0 steps) := by
            intro all
            rw [(folded _).mpr ⟨all, rfl⟩] at resolved
            cases resolved
          simp [bind, Except.bind, unresolvable]
      | ok linked =>
          obtain ⟨all, rfl⟩ := (folded _).mp resolved
          simp [bind, Except.bind, pure, Except.pure, all, linkedCode]

/-- What is known of a session that was finished. -/
structure Finished (steps : List BuildStep) (builder : Builder) (result : LinkedCode) :
    Prop where
  run : Steps {} steps builder
  emittable : ∀ step ∈ steps, step.1.Emittable
  ended : builder.current = none
  resolvable : Placement.Resolvable builder.functions (Placement.ofSteps "" 0 steps)
  linked : linkedCode builder.functions
    (Placement.linked builder.functions (Placement.ofSteps "" 0 steps)) = result

theorem finished_of_finish
    {calls : List BuildCall}
    (emittable : ∀ call ∈ calls, call.Emittable)
    (ran : runCalls calls {} = (steps, builder))
    {result : LinkedCode}
    (finished : builder.finish = .ok result) :
    Finished steps builder result := by
  have run := steps_runCalls calls emittable {} (by rintro _ ⟨⟩)
  have subset := runCalls_calls_subset calls {}
  rw [ran] at run subset
  have stepsEmittable : ∀ step ∈ steps, step.1.Emittable :=
    fun step member => emittable step.1 (subset step member)
  obtain ⟨ended, resolvable, linked⟩ := (run.finish_eq_ok_iff stepsEmittable result).mp finished
  exact ⟨run, stepsEmittable, ended, resolvable, linked⟩

namespace Finished

variable {steps : List BuildStep} {builder : Builder} {result : LinkedCode} {placement : Placement}

/-- The instructions of a finished session. -/
def instructions (steps : List BuildStep) (builder : Builder) : List Instruction :=
  Placement.linked builder.functions (Placement.ofSteps "" 0 steps)

variable (finished : Finished steps builder result)

include finished

theorem laid :
    Placement.Laid 0 (Placement.ofSteps "" 0 steps) :=
  Placement.laid_ofSteps finished.run finished.emittable ""

theorem wellFormed :
    ∀ instruction ∈ instructions steps builder, instruction.WellFormed :=
  Placement.linked_wellFormed finished.laid finished.resolvable

theorem consecutive :
    Consecutive 0 (instructions steps builder) :=
  Placement.consecutive_linked _ finished.laid

/-- The pages hold the code of the instructions. -/
theorem flatten_pages :
    result.pages.flatten = codeOf (instructions steps builder) := by
  rw [← finished.linked]
  exact Paged.flatten_ofArray _

theorem size_codeOf :
    (codeOf (instructions steps builder)).size = result.length := by
  rw [← finished.linked]
  rfl

/-- The code before it was linked. -/
theorem code_eq :
    builder.code = Placement.codeBefore (Placement.ofSteps "" 0 steps) := by
  obtain ⟨code, _⟩ := Placement.code_ofSteps finished.run "" (by rintro _ ⟨⟩)
  rwa [Array.empty_append] at code

/-- The length of the code is not changed by linking. -/
theorem length_eq :
    result.length = builder.code.size := by
  rw [← finished.linked, finished.code_eq]
  have sameSize : ∀ placements : List Placement,
      (codeOf (Placement.linked builder.functions placements)).size =
        (Placement.codeBefore placements).size := by
    intro placements
    induction placements with
    | nil => rfl
    | cons placement rest ih =>
        have sameBytes := placement.size_instruction builder.functions
        unfold Instruction.size at sameBytes
        simp only [Placement.linked, Placement.codeBefore, codeOf_append, codeOf,
          codeOf_gapInstructions, Array.size_append, ih, sameBytes]
        omega
  simpa [linkedCode] using sameSize _

/-- A placement ends inside of the code. -/
theorem stop_le_length
    (member : placement ∈ Placement.ofSteps "" 0 steps) :
    placement.address + placement.bytes.size ≤ result.length := by
  have isInstruction := Placement.instruction_mem_linked builder.functions member
  obtain ⟨before, after, divided, place⟩ := finished.consecutive.divide isInstruction
  have sameSize := placement.size_instruction builder.functions
  rw [Placement.ip_instruction] at place
  unfold Instruction.size at sameSize
  have whole := finished.size_codeOf
  rw [divided, codeOf_append, codeOf, Array.size_append, Array.size_append] at whole
  omega

/-- The instruction of a placement is read at its address. -/
theorem decode_placement
    (member : placement ∈ Placement.ofSteps "" 0 steps) :
    decode result.pages.flatten placement.address =
      .ok (placement.instruction builder.functions) := by
  have read := decode_codeOf finished.wellFormed finished.consecutive
    (Placement.instruction_mem_linked builder.functions member)
  rwa [Placement.ip_instruction, ← finished.flatten_pages] at read

end Finished

/-- Calls that all succeed can be finished if their functions are ended and their references can be
resolved. -/
theorem exists_finish_of_run?
    {calls : List BuildCall}
    (emittable : ∀ call ∈ calls, call.Emittable)
    {steps : List BuildStep} {after : Outline}
    (ran : Outline.run? calls {} = some (steps, after))
    (ended : after.current = none)
    (resolvable : Placement.Resolvable after.functions (Placement.ofSteps "" 0 steps)) :
    ∃ result, (runCalls calls {}).2.finish = .ok result ∧ result.length = after.size ∧
      result.pages.pages.size = pageCount after.size := by
  have between : ({} : Builder).Between := by rintro _ ⟨⟩
  obtain ⟨rfl, rfl⟩ := runCalls_of_run? emittable between ran
  have run := steps_runCalls calls emittable {} between
  have stepsEmittable : ∀ step ∈ (runCalls calls {}).1, step.1.Emittable :=
    fun step member => emittable step.1 (runCalls_calls_subset _ _ step member)
  have finish := (run.finish_eq_ok_iff stepsEmittable _).mpr ⟨ended, resolvable, rfl⟩
  have length := (finished_of_finish emittable rfl finish).length_eq
  refine ⟨_, finish, length, ?_⟩
  exact (Paged.size_pages_ofArray _).trans (congrArg pageCount length)

theorem exists_finish_crowdedSession :
    ∃ result, (runCalls crowdedSession {}).2.finish = .ok result ∧ result.length = 16668 ∧
      result.pages.pages.size = 2 := by
  have outlined : (Outline.run? crowdedSession {}).any (fun ran =>
      ran.2.size == 16668 && ran.2.current.isNone && (Placement.ofSteps "" 0 ran.1).all
        fun placement => placement.fixups.all fun fixup =>
          (fixup.operand ran.2.functions).toBool) = true := by
    decide +kernel
  obtain ⟨⟨steps, after⟩, ran, known⟩ := Option.any_eq_true .. |>.mp outlined
  simp only [Bool.and_eq_true, beq_iff_eq, Option.isNone_iff_eq_none, List.all_eq_true] at known
  obtain ⟨⟨hasSize, ended⟩, resolves⟩ := known
  have resolvable : Placement.Resolvable after.functions (Placement.ofSteps "" 0 steps) := by
    intro placement isPlacement fixup isFixup
    have isOk := resolves placement isPlacement fixup isFixup
    cases isOperand : fixup.operand after.functions with
    | error error => simp [isOperand, Except.toBool] at isOk
    | ok operand => exact ⟨operand, isOperand⟩
  have finishes := exists_finish_of_run? emittable_crowdedSession ran ended resolvable
  rwa [hasSize] at finishes

end Builder
end ScriptBytecode
