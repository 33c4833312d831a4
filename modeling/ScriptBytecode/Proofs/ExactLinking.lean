import ScriptBytecode.Proofs.LinkedCode

/-!
# Linking is exact

Every instruction keeps its bytes apart from its references, at the address that was answered for
it.  Labels and functions have the addresses that can be read off the answers of the session, and
every jump, switch case and call leads exactly to the label or function it names, whatever was
moved to a new page in between.
-/

namespace ScriptBytecode

open Instruction Statement Builder

variable {functions : Array FunctionSymbols}

variable {address : Nat} {function : String}

/-! ## Positions in a session -/

/-- The function that is open after some steps, given the one that is open before them. -/
def openAfter : (function : Option String) → List BuildStep → Option String
  | function, [] => function
  | _, (.beginFunction name, _) :: rest => openAfter (some name) rest
  | _, (.endFunction, _) :: rest => openAfter none rest
  | function, _ :: rest => openAfter function rest

namespace Builder

variable {builder last : Builder} {steps : List BuildStep}

/-- A run can be divided where its steps are. -/
theorem Steps.divide
    {before after : List BuildStep}
    (run : Steps builder (before ++ after) last) :
    ∃ middle, Steps builder before middle ∧ Steps middle after last := by
  induction before generalizing builder with
  | nil => exact ⟨builder, .nil builder, run⟩
  | cons head rest ih =>
      cases run with
      | cons step later =>
          obtain ⟨middle, first, second⟩ := ih later
          exact ⟨middle, .cons step first, second⟩

/-- The open function can be read off the steps. -/
theorem Steps.openAfter_eq
    (run : Steps builder steps last) :
    openAfter (builder.current.map (·.name)) steps = last.current.map (·.name) := by
  induction run with
  | nil => rfl
  | cons step rest ih =>
      rw [← ih]
      cases step with
      | beginFunction name outside fresh => rfl
      | addLabel label function current notEmpty fresh => simp [openAfter, current]
      | emit statement function current fewCases =>
          simp [openAfter, current, afterPlacing, OpenFunction.bindAt]
      | endFunction function current => rfl

theorem Steps.nameFree
    (run : Steps builder steps last)
    (nameFree : builder.NameFree) :
    last.NameFree := by
  induction run with
  | nil => exact nameFree
  | cons step rest ih => exact ih (step.nameFree nameFree)

section Session

variable {builder : Builder} {before after : List BuildStep} {function : String} {length : Nat}

/-- A label has the address of the next instruction of its function. -/
theorem Steps.finishedLabel_addLabel
    {label : String}
    (run : Steps {} (before ++ (.addLabel label, length) :: after) builder)
    (finished : builder.current = none)
    (inFunction : openAfter none before = some function) :
    finishedLabel? builder.functions function label = some (addressAfter after) := by
  obtain ⟨middle, first, second⟩ := run.divide
  have middleFree := first.nameFree (by rintro _ ⟨⟩)
  have opened := first.openAfter_eq.symm
  rw [Option.map_none, inFunction] at opened
  obtain ⟨current, isCurrent, rfl⟩ := Option.map_eq_some_iff.mp opened
  obtain ⟨symbols, found, _, labels⟩ := second.symbols_of_current finished middleFree isCurrent
  cases second with
  | cons step rest =>
      cases step with
      | addLabel _ current' isCurrent' notEmpty fresh =>
          rw [isCurrent'] at isCurrent
          cases isCurrent
          obtain ⟨notPending, notBound⟩ := lookup_eq_none_of_hasLabel fresh
          simp [finishedLabel?, found, labels, notPending, notBound, labelsAfter]

/-- A function has the address of its first instruction. -/
theorem Steps.find?_beginFunction
    (run : Steps {} (before ++ (.beginFunction function, length) :: after) builder)
    (finished : builder.current = none) :
    (builder.functions.find? (·.name == function)).map (·.start) =
      some (startAfter length after) := by
  obtain ⟨middle, first, second⟩ := run.divide
  have middleFree := first.nameFree (by rintro _ ⟨⟩)
  cases second with
  | cons step rest =>
      have nextFree := step.nameFree middleFree
      cases step with
      | beginFunction _ outside fresh =>
          obtain ⟨symbols, found, start, _⟩ := rest.symbols_of_current finished nextFree rfl
          simp only at found
          simp [found, start]

end Session
end Builder

/-- A statement of a session is among its placements, in the function that is open at its place. -/
theorem Placement.mem_ofSteps
    {before after : List BuildStep} {statement : Statement} {opened : Option String}
    (inFunction : openAfter opened before = some function)
    (recent : String)
    (tracked : ∀ name, opened = some name → name = recent)
    (size : Nat) :
    ∃ placement ∈ ofSteps recent size (before ++ (.emit statement, address) :: after),
      placement.function = function ∧ placement.address = address ∧
        placement.statement = statement := by
  induction before generalizing opened recent size with
  | nil => exact ⟨_, List.mem_cons_self, (tracked function inFunction).symm, rfl, rfl⟩
  | cons head rest ih =>
      obtain ⟨call, answer⟩ := head
      cases call with
      | beginFunction name =>
          exact ih inFunction name (by rintro _ ⟨⟩; rfl) size
      | endFunction => exact ih inFunction recent (by rintro _ ⟨⟩) size
      | addLabel label => exact ih inFunction recent tracked size
      | emit earlier =>
          obtain ⟨placement, member, isPlacement⟩ :=
            ih inFunction recent tracked
              (answer + earlier.fragment.bytes.size)
          exact ⟨placement, List.mem_cons_of_mem _ member, isPlacement⟩

/-! ## Targets of linked operands -/

theorem wrapAddress_of_lt (small : address < 2 ^ 32) :
    wrapAddress address = address := by
  unfold wrapAddress
  omega

/-- The operand of a label leads back to the label from the end of the operand. -/
theorem add_labelOperand
    {label : String} {offset : Nat}
    (resolvable : (fixupOf function address ⟨offset, .relative, label⟩).Resolvable functions) :
    finishedLabel? functions function label = some (labelOf functions function label) ∧
      ((address + offset : Nat) : Int) + 2 +
        (labelOperand functions function address offset label).toInt =
        labelOf functions function label := by
  obtain ⟨operand, found⟩ := resolvable
  obtain ⟨target, known, ⟨notBelow, notAbove⟩, _⟩ := (Fixup.operand_relative_iff rfl).mp found
  simp only [fixupOf] at known notBelow notAbove
  have isTarget : labelOf functions function label = target := by simp [labelOf, known]
  refine ⟨isTarget ▸ known, ?_⟩
  rw [labelOperand, isTarget, Int16.toInt_ofInt_of_le (by omega) (by omega)]
  omega

section Targets

variable {functions : Array FunctionSymbols} {function label : String} {address : Nat} {index : Nat}

/-- A linked jump leads to its label, as far as addresses reach. -/
theorem jumpTarget_labelOperand_eq_wrap
    (resolvable : (fixupOf function address ⟨1, .relative, label⟩).Resolvable functions) :
    jumpTarget address (labelOperand functions function address 1 label) =
      wrapAddress (labelOf functions function label) := by
  obtain ⟨_, leads⟩ := add_labelOperand resolvable
  rw [jumpTarget, ← leads]
  rfl

/-- A linked jump leads to its label. -/
theorem jumpTarget_labelOperand
    (resolvable : (fixupOf function address ⟨1, .relative, label⟩).Resolvable functions)
    (small : labelOf functions function label < 2 ^ 32) :
    jumpTarget address (labelOperand functions function address 1 label) =
      labelOf functions function label := by
  rw [jumpTarget_labelOperand_eq_wrap resolvable, wrapAddress_of_lt small]

/-- A linked switch case leads to its label, as far as addresses reach. -/
theorem caseTarget_labelOperand_eq_wrap
    (resolvable :
      (fixupOf function address ⟨6 + 6 * index, .relative, label⟩).Resolvable functions) :
    caseTarget address index (labelOperand functions function address (6 + 6 * index) label) =
      wrapAddress (labelOf functions function label) := by
  obtain ⟨_, leads⟩ := add_labelOperand resolvable
  rw [caseTarget, ← leads]
  congr 1
  omega

/-- A linked switch case leads to its label. -/
theorem caseTarget_labelOperand
    (resolvable :
      (fixupOf function address ⟨6 + 6 * index, .relative, label⟩).Resolvable functions)
    (small : labelOf functions function label < 2 ^ 32) :
    caseTarget address index (labelOperand functions function address (6 + 6 * index) label) =
      labelOf functions function label := by
  rw [caseTarget_labelOperand_eq_wrap resolvable, wrapAddress_of_lt small]

end Targets

theorem Statement.getElem?_resolvedCases
    (labelOperand : Nat → String → Int16)
    (offset : Nat)
    (cases : List (UInt32 × String))
    (index : Nat) :
    (resolvedCases labelOperand offset cases)[index]? =
      cases[index]?.map fun (value, label) => (value, labelOperand (offset + 6 * index) label) := by
  induction cases generalizing offset index with
  | nil => rfl
  | cons head rest ih =>
      obtain ⟨value, label⟩ := head
      cases index with
      | zero => rfl
      | succ index =>
          have shifted : offset + 6 + 6 * index = offset + 6 * (index + 1) := by omega
          rw [resolvedCases, List.getElem?_cons_succ, ih, shifted,
            List.getElem?_cons_succ]

/-- The cases of a linked switch lead to their labels. -/
theorem switchCases_resolvedCases
    {cases : List (UInt32 × String)}
    (resolvable : ∀ (index : Nat) (case : UInt32 × String), cases[index]? = some case →
      (fixupOf function address ⟨6 + 6 * index, .relative, case.2⟩).Resolvable functions)
    (small : ∀ case ∈ cases, labelOf functions function case.2 < 2 ^ 32) :
    (switchCases address (resolvedCases (labelOperand functions function address) 6 cases)).map
        (fun (_, value, _, target) => (value, target)) =
      cases.map fun (value, label) => (value, labelOf functions function label) := by
  apply List.ext_getElem?
  intro index
  simp only [switchCases, List.getElem?_map, List.getElem?_mapIdx, getElem?_resolvedCases]
  cases found : cases[index]? with
  | none => rfl
  | some case =>
      have leads := caseTarget_labelOperand (resolvable index case found)
        (small case (List.mem_of_getElem? found))
      simp [leads]

/-! ## Sessions -/

/-- What it means that a session was linked exactly: the instructions, labels and functions stand
where the answers of the session say, and every reference leads to what it names. -/
structure LinkedExactly (steps : List BuildStep) (builder : Builder) (result : LinkedCode) :
    Prop where
  /-- Bytes that belong to no reference stay as they were emitted. -/
  bytes : ∀ statement address, (.emit statement, address) ∈ steps →
    ∀ index < statement.fragment.bytes.size, Outside statement.fragment.references index →
      result.pages.flatten[address + index]? = statement.fragment.bytes[index]?
  /-- A label stands for the next instruction of its function. -/
  labels : ∀ before after label length, steps = before ++ (.addLabel label, length) :: after →
    ∃ function, openAfter none before = some function ∧
      builder.labelAddress? function label = some (addressAfter after)
  /-- A function stands for its first instruction. -/
  starts : ∀ before after function length,
    steps = before ++ (.beginFunction function, length) :: after →
      builder.functionAddress? function = some (startAfter length after)
  /-- The functions are reported in order, with these addresses. -/
  functions : result.functions.toList = functionsIn steps
  /-- A jump leads to its label. -/
  jumps : ∀ before after opcode label address,
    steps = before ++ (.emit (.jump opcode label), address) :: after →
      ∃ function offset, openAfter none before = some function ∧
        decode result.pages.flatten address = .ok ⟨address, opcode, .rel16 offset⟩ ∧
        builder.labelAddress? function label = some (jumpTarget address offset)
  /-- The cases of a switch lead to their labels. -/
  switches : ∀ before after cases address,
    steps = before ++ (.emit (.switch cases), address) :: after →
      ∃ function offsets, openAfter none before = some function ∧
        decode result.pages.flatten address = .ok ⟨address, .switch, .switch offsets⟩ ∧
        (switchCases address offsets).map (fun (_, value, _, target) => (value, some target)) =
          cases.map fun (value, label) => (value, builder.labelAddress? function label)
  /-- A call leads to the function it names. -/
  calls : ∀ function address, (.emit (.call function), address) ∈ steps →
    ∃ operand, decode result.pages.flatten address = .ok ⟨address, .call, .u24 operand⟩ ∧
      builder.functionAddress? function = some operand.toNat

namespace Builder

/-- A call of a run is made in some function. -/
theorem Steps.exists_openAfter
    {builder : Builder} {before after : List BuildStep} {call : BuildCall} {answer : Nat}
    (run : Steps {} (before ++ (call, answer) :: after) builder)
    (inside : ∀ name, call ≠ .beginFunction name) :
    ∃ function, openAfter none before = some function := by
  obtain ⟨middle, first, second⟩ := run.divide
  have opened := first.openAfter_eq
  rw [Option.map_none] at opened
  rw [opened]
  cases second with
  | cons step rest =>
      cases step with
      | beginFunction name outside fresh => exact absurd rfl (inside name)
      | addLabel label function current notEmpty fresh => exact ⟨function.name, by simp [current]⟩
      | emit statement function current fewCases => exact ⟨function.name, by simp [current]⟩
      | endFunction function current => exact ⟨function.name, by simp [current]⟩

namespace Finished

variable {steps : List BuildStep} {builder : Builder} {result : LinkedCode}
    {before after : List BuildStep} {placement : Placement} {function label : String}
    {address : Nat} {statement : Statement} {cases : List (UInt32 × String)} {index : Nat}

variable (finished : Finished steps builder result)

include finished

theorem labelAddress_eq
    (function label : String) :
    builder.labelAddress? function label = finishedLabel? builder.functions function label := by
  simp [labelAddress?, finished.ended]

theorem functionAddress_eq
    (function : String) :
    builder.functionAddress? function =
      (builder.functions.find? (·.name == function)).map (·.start) := by
  simp [functionAddress?, finished.ended]

/-- The address of a label that a fixup resolves to is a 32-bit word. -/
theorem labelOf_lt
    (fits : result.length < 2 ^ 32)
    (known : finishedLabel? builder.functions function label =
      some (labelOf builder.functions function label)) :
    labelOf builder.functions function label < 2 ^ 32 := by
  have inCode := (finished.run.bounded bounded_empty).finishedLabel_le known
  rw [finished.length_eq] at fits
  omega

/-- A statement of a session has a placement in the function that is open at its place. -/
theorem exists_placement
    (divided : steps = before ++ (.emit statement, address) :: after) :
    ∃ function, openAfter none before = some function ∧
      ∃ placement ∈ Placement.ofSteps "" 0 steps, placement.function = function ∧
        placement.address = address ∧ placement.statement = statement := by
  subst divided
  obtain ⟨function, inFunction⟩ := finished.run.exists_openAfter (by simp)
  exact ⟨function, inFunction, Placement.mem_ofSteps inFunction "" (by rintro _ ⟨⟩) 0⟩

theorem bytes_unchanged
    (member : (.emit statement, address) ∈ steps)
    (inside : index < statement.fragment.bytes.size)
    (outside : Outside statement.fragment.references index) :
    result.pages.flatten[address + index]? = statement.fragment.bytes[index]? := by
  obtain ⟨before, after, divided⟩ := List.append_of_mem member
  obtain ⟨_, _, placement, isPlacement, _, rfl, rfl⟩ := finished.exists_placement divided
  have read := getElem?_codeOf finished.consecutive
    (Placement.instruction_mem_linked builder.functions isPlacement) index
    (by rwa [Placement.size_instruction])
  rw [Placement.ip_instruction, ← Placement.fillIn_bytes, getElem?_fillIn _ _ _ outside] at read
  rwa [finished.flatten_pages]

/-- A label that a linked statement refers to is known. -/
theorem label_known
    (member : placement ∈ Placement.ofSteps "" 0 steps)
    {offset : Nat}
    (isReference : ⟨offset, .relative, label⟩ ∈ placement.statement.fragment.references) :
    finishedLabel? builder.functions placement.function label =
      some (labelOf builder.functions placement.function label) :=
  (add_labelOperand (finished.resolvable _ member _ (List.mem_map_of_mem isReference))).1

/-- A function that a linked statement refers to is known. -/
theorem function_known
    (member : placement ∈ Placement.ofSteps "" 0 steps)
    (isCall : placement.statement = .call function) :
    builder.functionAddress? function = some (startOf builder.functions function) := by
  have isReference : ⟨1, .absolute, function⟩ ∈ placement.statement.fragment.references := by
    rw [isCall]
    exact List.mem_singleton_self _
  obtain ⟨operand, found⟩ := finished.resolvable _ member _ (List.mem_map_of_mem isReference)
  obtain ⟨symbols, known, _⟩ := (Fixup.operand_absolute_iff rfl).mp found
  simp only [fixupOf] at known
  simp [finished.functionAddress_eq, startOf, known]

/-- A linked call holds the address of its function. -/
theorem toNat_functionOperand
    (member : placement ∈ Placement.ofSteps "" 0 steps)
    (isCall : placement.statement = .call function) :
    (functionOperand builder.functions function).toNat = startOf builder.functions function := by
  have isReference : ⟨1, .absolute, function⟩ ∈ placement.statement.fragment.references := by
    rw [isCall]
    exact List.mem_singleton_self _
  obtain ⟨operand, found⟩ := finished.resolvable _ member _ (List.mem_map_of_mem isReference)
  obtain ⟨symbols, known, near, _⟩ := (Fixup.operand_absolute_iff rfl).mp found
  simp only [fixupOf] at known
  unfold maxCallTarget at near
  simp only [functionOperand, startOf, known, Option.map_some, Option.getD_some,
    UInt32.toNat_ofNat']
  omega

omit finished

theorem caseReference_mem
    {case : UInt32 × String}
    (found : cases[index]? = some case) :
    caseReference index case.2 ∈ (switch cases).fragment.references := by
  apply List.mem_of_getElem? (i := index)
  simp only [fragment, List.getElem?_mapIdx, found, Option.map_some]

/-- The operands of a linked statement lead to the labels and functions it names. -/
theorem leadsTo
    (finished : Finished steps builder result)
    (fits : result.length < 2 ^ 32)
    (member : placement ∈ Placement.ofSteps "" 0 steps) :
    LeadsTo placement.address
      (labelOperand builder.functions placement.function placement.address)
      (functionOperand builder.functions) (labelOf builder.functions placement.function)
      (startOf builder.functions) placement.statement := by
  obtain ⟨function, size, address, statement⟩ := placement
  have resolvable : ∀ reference ∈ statement.fragment.references,
      (fixupOf function address reference).Resolvable builder.functions :=
    fun reference isReference =>
      finished.resolvable _ member _ (List.mem_map_of_mem isReference)
  refine ⟨?_, ?_, ?_⟩
  · rintro opcode label rfl
    exact jumpTarget_labelOperand (resolvable _ List.mem_cons_self)
      (finished.labelOf_lt fits (finished.label_known member List.mem_cons_self))
  · rintro called rfl
    exact finished.toNat_functionOperand member rfl
  · rintro cases rfl
    refine switchCases_resolvedCases (fun index case found =>
      resolvable _ (caseReference_mem found)) fun case isCase => ?_
    obtain ⟨index, found⟩ := List.getElem?_of_mem isCase
    exact finished.labelOf_lt fits (finished.label_known member (caseReference_mem found))

theorem jump_exact
    (finished : Finished steps builder result)
    (fits : result.length < 2 ^ 32)
    {opcode : Opcode}
    (divided : steps = before ++ (.emit (.jump opcode label), address) :: after) :
    ∃ function offset, openAfter none before = some function ∧
      decode result.pages.flatten address = .ok ⟨address, opcode, .rel16 offset⟩ ∧
      builder.labelAddress? function label = some (jumpTarget address offset) := by
  obtain ⟨_, inFunction, ⟨function, size, _, _⟩, isPlacement, rfl, rfl, rfl⟩ :=
    finished.exists_placement divided
  refine ⟨function, _, inFunction, finished.decode_placement isPlacement, ?_⟩
  rw [finished.labelAddress_eq, finished.label_known isPlacement List.mem_cons_self,
    (finished.leadsTo fits isPlacement).jump opcode label rfl]

theorem switch_exact
    (finished : Finished steps builder result)
    (fits : result.length < 2 ^ 32)
    (divided : steps = before ++ (.emit (.switch cases), address) :: after) :
    ∃ function offsets, openAfter none before = some function ∧
      decode result.pages.flatten address = .ok ⟨address, .switch, .switch offsets⟩ ∧
      (switchCases address offsets).map (fun (_, value, _, target) => (value, some target)) =
        cases.map fun (value, label) => (value, builder.labelAddress? function label) := by
  obtain ⟨_, inFunction, ⟨function, size, _, _⟩, isPlacement, rfl, rfl, rfl⟩ :=
    finished.exists_placement divided
  have targets := congrArg (List.map fun case => (case.1, some case.2))
    ((finished.leadsTo fits isPlacement).switch cases rfl)
  rw [List.map_map, List.map_map] at targets
  refine ⟨function, _, inFunction, finished.decode_placement isPlacement, targets.trans ?_⟩
  apply List.map_congr_left
  intro case isCase
  obtain ⟨index, found⟩ := List.getElem?_of_mem isCase
  simp only [Function.comp_apply, finished.labelAddress_eq,
    finished.label_known isPlacement (caseReference_mem found)]

theorem call_exact
    (finished : Finished steps builder result)
    (fits : result.length < 2 ^ 32)
    (member : (.emit (.call function), address) ∈ steps) :
    ∃ operand, decode result.pages.flatten address = .ok ⟨address, .call, .u24 operand⟩ ∧
      builder.functionAddress? function = some operand.toNat := by
  obtain ⟨before, after, divided⟩ := List.append_of_mem member
  obtain ⟨_, _, ⟨_, size, _, _⟩, isPlacement, rfl, rfl, rfl⟩ := finished.exists_placement divided
  refine ⟨_, finished.decode_placement isPlacement, ?_⟩
  rw [finished.function_known isPlacement rfl,
    (finished.leadsTo fits isPlacement).call function rfl]

end Finished

/-- Linking is exact: of every session that can be finished, the code holds each emitted
instruction at its answered address, unchanged apart from its references, labels and functions
have the addresses of the instructions they stand for, and jumps, switch cases and calls lead to
exactly these addresses.  The length of code is a 32-bit word. -/
theorem finish_linkedExactly
    {calls : List BuildCall}
    (emittable : ∀ call ∈ calls, call.Emittable)
    {steps : List BuildStep} {builder : Builder}
    (ran : runCalls calls {} = (steps, builder))
    {result : LinkedCode}
    (finish : builder.finish = .ok result)
    (fits : result.length < 2 ^ 32) :
    LinkedExactly steps builder result := by
  have finished := finished_of_finish emittable ran finish
  refine
    { bytes := fun statement address member index inside outside =>
        finished.bytes_unchanged member inside outside
      labels := ?_
      starts := ?_
      functions := ?_
      jumps := fun before after opcode label address divided =>
        finished.jump_exact fits divided
      switches := fun before after cases address divided => finished.switch_exact fits divided
      calls := fun function address member => finished.call_exact fits member }
  · intro before after label length divided
    have run := finished.run
    rw [divided] at run
    obtain ⟨function, inFunction⟩ := run.exists_openAfter (by simp)
    refine ⟨function, inFunction, ?_⟩
    rw [finished.labelAddress_eq]
    exact run.finishedLabel_addLabel finished.ended inFunction
  · intro before after function length divided
    have run := finished.run
    rw [divided] at run
    rw [finished.functionAddress_eq]
    exact run.find?_beginFunction finished.ended
  · have functions := finished.run.functions_eq finished.ended
    rw [← finished.linked]
    simpa [linkedCode] using functions

theorem finish_linkedExactly_crowdedSession :
    ∃ result, (runCalls crowdedSession {}).2.finish = .ok result ∧ result.length = 16668 ∧
      result.pages.pages.size = 2 ∧
      LinkedExactly (runCalls crowdedSession {}).1 (runCalls crowdedSession {}).2 result := by
  obtain ⟨result, finish, length, pages⟩ := exists_finish_crowdedSession
  exact ⟨result, finish, length, pages,
    finish_linkedExactly emittable_crowdedSession (Prod.eta _).symm finish (by omega)⟩

end Builder

end ScriptBytecode
