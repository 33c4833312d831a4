import Mathlib.Data.List.Basic
import ScriptBytecode.Proofs.PageLayout
import ScriptBytecode.Proofs.RelinkedInstructions

/-!
# Placing listed functions again

Functions that were found in code are placed again at the addresses they have there, since every
instruction fits in the page where it stands.  Their labels and names get back their addresses, so
that linking gives the same code.
-/

namespace ScriptBytecode

open Instruction Builder

/-! ## Runs of a build session -/

namespace Builder

variable {builder last : Builder}

theorem Steps.append
    {middle : Builder} {before after : List BuildStep}
    (first : Steps builder before middle)
    (second : Steps middle after last) :
    Steps builder (before ++ after) last := by
  induction first with
  | nil builder => exact second
  | cons step rest ih => exact .cons step (ih second)

/-- Calls that make a run succeed. -/
theorem placeCalls_of_steps
    {steps : List BuildStep}
    (run : Steps builder steps last)
    (emittable : ∀ step ∈ steps, step.1.Emittable)
    (between : builder.Between) :
    placeCalls (steps.map Prod.fst) builder = .ok () last := by
  induction run with
  | nil builder => rfl
  | cons step rest ih =>
      obtain ⟨emittableHere, emittableLater⟩ := List.forall_mem_cons.mp emittable
      have later := ih emittableLater (step.between between)
      simp only [List.map_cons, placeCalls, bind, EStateM.bind, step.run emittableHere between]
      exact later

/-- A builder that has placed code of some size and goes on with a function, of which it knows no
labels but those it has seen. -/
structure Inside (functions : Array FunctionSymbols) (name : String) (size : Nat)
    (seen : List String) (builder : Builder) : Prop where
  sameFunctions : builder.functions = functions
  hasSize : builder.code.size = size
  isOpen : ∃ function, builder.current = some function ∧ function.name = name ∧
    ∀ label, function.hasLabel label = true → label ∈ seen

theorem hasLabel_bindAt (function : OpenFunction) (address : Nat) (label : String) :
    (function.bindAt address).hasLabel label = function.hasLabel label := by
  simp only [OpenFunction.hasLabel, OpenFunction.bindAt, lookup_bound]
  by_cases isPending : label ∈ function.pending <;> simp [isPending]

namespace Inside

variable {functions : Array FunctionSymbols} {name : String} {size : Nat} {seen : List String}
  {builder : Builder}

theorem addLabel
    (inside : Inside functions name size seen builder)
    {label : String}
    (notEmpty : label.isEmpty = false)
    (fresh : label ∉ seen) :
    ∃ next, Step builder (.addLabel label) size next ∧
      Inside functions name size (seen ++ [label]) next := by
  obtain ⟨sameFunctions, rfl, function, current, isName, onlySeen⟩ := inside
  have unused : function.hasLabel label = false := by
    rw [Bool.eq_false_iff]
    exact fun used => fresh (onlySeen label used)
  refine ⟨_, .addLabel label function current notEmpty unused, sameFunctions, rfl, _, rfl, isName,
    fun other known => ?_⟩
  simp only [OpenFunction.hasLabel, Bool.or_eq_true, List.contains_iff_mem, List.mem_append,
    List.mem_singleton] at known
  rw [List.mem_append, List.mem_singleton]
  rcases known with (isPending | isNew) | isBound
  · exact .inl (onlySeen other (by simp [OpenFunction.hasLabel, isPending]))
  · exact .inr isNew
  · exact .inl (onlySeen other (by simp [OpenFunction.hasLabel, isBound]))

/-- A statement that fits in its page is placed where the code ends. -/
theorem emit
    (inside : Inside functions name size seen builder)
    {statement : Statement}
    (fewCases : statement.caseCount ≤ maxSwitchCases)
    (stays : ¬Crosses size statement.fragment.bytes) :
    ∃ next, Step builder (.emit statement) size next ∧
      Inside functions name (size + statement.fragment.bytes.size) seen next := by
  obtain ⟨sameFunctions, rfl, function, current, isName, onlySeen⟩ := inside
  have step := Step.emit statement function current fewCases
  rw [addressFor_eq, if_neg stays] at step
  refine ⟨_, step, sameFunctions, ?_, _, rfl, isName, fun label known => ?_⟩
  · simp [afterPlacing, gap_eq, stays]
  · exact onlySeen label (by rwa [hasLabel_bindAt] at known)

end Inside
end Builder

/-- A statement that takes the place of an instruction: it has its size and fits where it stands. -/
structure Statement.TakesPlace (instruction : Instruction) (statement : Statement) : Prop where
  encodable : statement.Encodable
  sameSize : statement.fragment.bytes.size = instruction.size
  stays : ¬Crosses instruction.ip statement.fragment.bytes

/-- The steps that place a line at an address. -/
def Line.steps (address : Nat) (line : Line) : List BuildStep :=
  line.1.map (fun label => (.addLabel label, address)) ++ [(.emit line.2, address)]

namespace Builder.Inside

variable {functions : Array FunctionSymbols} {name : String} {size : Nat} {seen : List String}
  {builder : Builder}

theorem addLabels
    (inside : Inside functions name size seen builder)
    {labels : List String}
    (notEmpty : ∀ label ∈ labels, label.isEmpty = false)
    (nodup : (seen ++ labels).Nodup) :
    ∃ next, Steps builder (labels.map fun label => (.addLabel label, size)) next ∧
      Inside functions name size (seen ++ labels) next := by
  induction labels generalizing builder seen with
  | nil => exact ⟨builder, .nil builder, by rwa [List.append_nil]⟩
  | cons label labels ih =>
      obtain ⟨notEmptyHere, notEmptyLater⟩ := List.forall_mem_cons.mp notEmpty
      have fresh : label ∉ seen := fun repeated =>
        (List.nodup_append.mp nodup).2.2 label repeated label List.mem_cons_self rfl
      have regrouped : seen ++ label :: labels = seen ++ [label] ++ labels := by simp
      rw [regrouped] at nodup ⊢
      obtain ⟨middle, step, middleInside⟩ := inside.addLabel notEmptyHere fresh
      obtain ⟨next, run, nextInside⟩ := ih middleInside notEmptyLater nodup
      exact ⟨next, .cons step run, nextInside⟩

/-- Lines that take the places of consecutive instructions are placed at their addresses. -/
theorem lines
    (inside : Inside functions name size seen builder)
    {instructions : List Instruction}
    (consecutive : Consecutive size instructions)
    {line : Instruction → Line}
    (takesPlace : ∀ instruction ∈ instructions, (line instruction).2.TakesPlace instruction)
    (notEmpty : ∀ label ∈ instructions.flatMap fun instruction => (line instruction).1,
      label.isEmpty = false)
    (nodup : (seen ++ instructions.flatMap fun instruction => (line instruction).1).Nodup) :
    ∃ next,
      Steps builder
        (instructions.flatMap fun instruction => (line instruction).steps instruction.ip) next ∧
      Inside functions name (size + (codeOf instructions).size)
        (seen ++ instructions.flatMap fun instruction => (line instruction).1) next := by
  induction instructions generalizing builder size seen with
  | nil => exact ⟨builder, .nil builder, by simpa [codeOf] using inside⟩
  | cons instruction rest ih =>
      obtain ⟨rfl, later⟩ := consecutive
      obtain ⟨takesHere, takesLater⟩ := List.forall_mem_cons.mp takesPlace
      rw [List.flatMap_cons] at notEmpty nodup ⊢
      rw [List.forall_mem_append] at notEmpty
      rw [← List.append_assoc] at nodup
      obtain ⟨labelled, labelSteps, labelledInside⟩ :=
        inside.addLabels notEmpty.1 (List.nodup_append.mp nodup).1
      obtain ⟨emitted, step, emittedInside⟩ :=
        labelledInside.emit takesHere.encodable.fewCases takesHere.stays
      rw [takesHere.sameSize] at emittedInside
      obtain ⟨next, run, nextInside⟩ :=
        ih emittedInside later takesLater notEmpty.2 nodup
      refine ⟨next, (labelSteps.append (.cons step (.nil _))).append run, ?_⟩
      rw [List.flatMap_cons, ← List.append_assoc, codeOf, Array.size_append, ← Nat.add_assoc]
      exact nextInside

end Builder.Inside

namespace Listing

/-! ## The steps of functions -/

/-- The steps that place a function that was found in code. -/
def NamedBody.steps (codeLength : Nat) (names : AddressTable String) (function : NamedBody) :
    List BuildStep :=
  (.beginFunction function.name, function.body.start) ::
    (function.body.instructions.flatMap fun instruction =>
      (function.body.line codeLength names instruction).steps instruction.ip) ++
    (labelsAt (function.body.labelSet codeLength) function.body.stop).map
      (fun label => (.addLabel label, function.body.stop)) ++
    [(.endFunction, function.body.stop)]

theorem NamedBody.map_steps
    (codeLength : Nat)
    (names : AddressTable String)
    (function : NamedBody) :
    (function.steps codeLength names).map Prod.fst = (function.lines codeLength names).calls := by
  simp [NamedBody.steps, FunctionLines.calls, functionCalls, NamedBody.lines, Line.steps,
    Line.calls, List.map_flatMap, List.flatMap_map, Function.comp_def]

section Functions

variable {codeLength : Nat} {names : AddressTable String} {builder : Builder}

/-- A function is placed again where it was found. -/
theorem NamedBody.exists_steps
    {function : NamedBody}
    (consecutive : Consecutive function.body.start function.body.instructions)
    (writable : (function.lines codeLength names).Writable)
    (takesPlace : ∀ instruction ∈ function.body.instructions,
      (function.body.line codeLength names instruction).2.TakesPlace instruction)
    (outside : builder.current = none)
    (hasSize : builder.code.size = function.body.start)
    (fresh : builder.functions.any (·.name == function.name) = false) :
    ∃ next symbols, Steps builder (function.steps codeLength names) next ∧
      next.current = none ∧ next.code.size = function.body.stop ∧
      next.functions = builder.functions.push symbols ∧ symbols.name = function.name := by
  obtain ⟨-, nodup, notEmpty⟩ := writable
  rw [NamedBody.labels_lines, List.flatMap_append, List.flatMap_singleton, List.flatMap_map]
    at nodup notEmpty
  rw [List.forall_mem_append] at notEmpty
  have begun := Step.beginFunction function.name outside fresh
  rw [hasSize] at begun
  have begunInside : Inside builder.functions function.name function.body.start []
      { builder with current := some { name := function.name } } :=
    ⟨rfl, hasSize, _, rfl, rfl, by simp [OpenFunction.hasLabel]⟩
  obtain ⟨written, writes, writtenInside⟩ := begunInside.lines consecutive takesPlace notEmpty.1
    (by simpa [Body.line] using (List.nodup_append.mp nodup).1)
  rw [← Body.stop_eq consecutive, List.nil_append] at writtenInside
  obtain ⟨last, labels, lastInside⟩ := writtenInside.addLabels notEmpty.2 nodup
  obtain ⟨sameFunctions, lastSize, opened, current, isName, -⟩ := lastInside
  have ended := Step.endFunction opened current
  rw [lastSize] at ended
  refine ⟨_, opened.close function.body.stop,
    (((Steps.cons begun (.nil _)).append writes).append labels).append (.cons ended (.nil _)),
    rfl, lastSize, ?_, isName⟩
  simp [sameFunctions]

/-- Functions that follow each other are placed again where they were found. -/
theorem exists_steps
    {functions : List NamedBody} {start : Nat}
    (adjacent : Adjacent start (functions.map NamedBody.body))
    (writable : ∀ function ∈ functions, (function.lines codeLength names).Writable)
    (takesPlace : ∀ function ∈ functions, ∀ instruction ∈ function.body.instructions,
      (function.body.line codeLength names instruction).2.TakesPlace instruction)
    (outside : builder.current = none)
    (hasSize : builder.code.size = start)
    (namesNodup : (builder.functions.toList.map FunctionSymbols.name ++
      functions.map NamedBody.name).Nodup) :
    ∃ next, Steps builder (functions.flatMap (NamedBody.steps codeLength names)) next ∧
      next.current = none := by
  induction functions generalizing builder start with
  | nil => exact ⟨builder, .nil builder, outside⟩
  | cons function functions ih =>
      obtain ⟨rfl, consecutive, later⟩ := adjacent
      obtain ⟨writableHere, writableLater⟩ := List.forall_mem_cons.mp writable
      obtain ⟨takesHere, takesLater⟩ := List.forall_mem_cons.mp takesPlace
      have fresh : builder.functions.any (·.name == function.name) = false := by
        rw [Array.any_eq_false']
        intro symbols member
        have inNames := List.mem_map_of_mem (f := FunctionSymbols.name)
          (Array.mem_toList_iff.mpr member)
        have different := (List.nodup_append.mp namesNodup).2.2 _ inNames function.name
          List.mem_cons_self
        simpa using different
      obtain ⟨middle, symbols, run, middleOutside, middleSize, middleFunctions, isName⟩ :=
        function.exists_steps consecutive writableHere takesHere outside hasSize fresh
      obtain ⟨next, laterRun, nextOutside⟩ := ih later writableLater takesLater
        middleOutside middleSize (by simpa [middleFunctions, isName] using namesNodup)
      exact ⟨next, run.append laterRun, nextOutside⟩

end Functions

/-! ## Placements -/

/-- The placement of an instruction of a function that was found in code. -/
def NamedBody.placement (codeLength : Nat) (names : AddressTable String) (function : NamedBody)
    (instruction : Instruction) : Placement :=
  ⟨function.name, instruction.ip, instruction.ip,
    (function.body.line codeLength names instruction).2⟩

theorem ofSteps_labels
    (function : String)
    (size address : Nat)
    (labels : List String)
    (rest : List BuildStep) :
    Placement.ofSteps function size
        (labels.map (fun label => (BuildCall.addLabel label, address)) ++ rest) =
      Placement.ofSteps function size rest := by
  induction labels with
  | nil => rfl
  | cons label labels ih => exact ih

theorem ofSteps_lines
    (function : String)
    {size : Nat} {instructions : List Instruction}
    (consecutive : Consecutive size instructions)
    {line : Instruction → Line}
    (takesPlace : ∀ instruction ∈ instructions, (line instruction).2.TakesPlace instruction)
    (rest : List BuildStep) :
    Placement.ofSteps function size
        ((instructions.flatMap fun instruction => (line instruction).steps instruction.ip) ++
          rest) =
      (instructions.map fun instruction =>
        ⟨function, instruction.ip, instruction.ip, (line instruction).2⟩) ++
        Placement.ofSteps function (size + (codeOf instructions).size) rest := by
  induction instructions generalizing size with
  | nil => simp [codeOf]
  | cons instruction instructions ih =>
      obtain ⟨rfl, later⟩ := consecutive
      obtain ⟨takesHere, takesLater⟩ := List.forall_mem_cons.mp takesPlace
      rw [List.flatMap_cons, Line.steps, List.append_assoc, List.append_assoc, ofSteps_labels,
        List.singleton_append, Placement.ofSteps, takesHere.sameSize, codeOf, Array.size_append,
        ← Nat.add_assoc]
      exact congrArg (List.cons _) (ih later takesLater)

section Placements

variable {codeLength : Nat} {names : AddressTable String}

theorem ofSteps_functions
    {functions : List NamedBody}
    (recent : String)
    {start : Nat}
    (adjacent : Adjacent start (functions.map NamedBody.body))
    (takesPlace : ∀ function ∈ functions, ∀ instruction ∈ function.body.instructions,
      (function.body.line codeLength names instruction).2.TakesPlace instruction) :
    Placement.ofSteps recent start (functions.flatMap (NamedBody.steps codeLength names)) =
      functions.flatMap fun function =>
        function.body.instructions.map (function.placement codeLength names) := by
  induction functions generalizing recent start with
  | nil => rfl
  | cons function functions ih =>
      obtain ⟨rfl, consecutive, later⟩ := adjacent
      obtain ⟨takesHere, takesLater⟩ := List.forall_mem_cons.mp takesPlace
      rw [List.flatMap_cons, List.flatMap_cons, ← ih function.name later takesLater,
        NamedBody.steps]
      simp only [List.append_assoc, List.cons_append, Placement.ofSteps]
      rw [ofSteps_lines function.name consecutive takesHere, ofSteps_labels,
        ← Body.stop_eq consecutive]
      rfl

end Placements

/-! ## Symbols -/

theorem openAfter_append
    (opened : Option String)
    (before after : List BuildStep) :
    openAfter opened (before ++ after) = openAfter (openAfter opened before) after := by
  induction before generalizing opened with
  | nil => rfl
  | cons step before ih =>
      obtain ⟨call, answer⟩ := step
      cases call <;> exact ih _

theorem openAfter_labels (opened : Option String) (address : Nat) (labels : List String) :
    openAfter opened (labels.map fun label => (.addLabel label, address)) = opened := by
  induction labels with
  | nil => rfl
  | cons label labels ih => exact ih

theorem openAfter_lines
    (opened : Option String)
    (instructions : List Instruction)
    (line : Instruction → Line) :
    openAfter opened
        (instructions.flatMap fun instruction => (line instruction).steps instruction.ip) =
      opened := by
  induction instructions with
  | nil => rfl
  | cons instruction instructions ih =>
      rw [List.flatMap_cons, openAfter_append, Line.steps, openAfter_append, openAfter_labels]
      exact ih

theorem startAfter_labels
    (length address : Nat)
    (labels : List String)
    (rest : List BuildStep) :
    startAfter length (labels.map (fun label => (.addLabel label, address)) ++ rest) =
      startAfter length rest := by
  induction labels with
  | nil => rfl
  | cons label labels ih => exact ih

section Symbols

variable {codeLength : Nat} {names : AddressTable String} {functions : List NamedBody}
    {builder : Builder} {function : NamedBody} {address : Nat}

theorem openAfter_functions (codeLength : Nat) (names : AddressTable String)
    (functions : List NamedBody) :
    openAfter none (functions.flatMap (NamedBody.steps codeLength names)) = none := by
  induction functions with
  | nil => rfl
  | cons function functions ih =>
      rw [List.flatMap_cons, openAfter_append, NamedBody.steps, openAfter_append]
      exact ih

/-- A name stands for the start of its function. -/
theorem find?_start
    (run : Steps {} (functions.flatMap (NamedBody.steps codeLength names)) builder)
    (finished : builder.current = none)
    (member : function ∈ functions) :
    (builder.functions.find? (·.name == function.name)).map (·.start) =
      some function.body.start := by
  obtain ⟨earlier, later, rfl⟩ := List.append_of_mem member
  rw [List.flatMap_append, List.flatMap_cons, NamedBody.steps, List.append_assoc,
    List.append_assoc, List.cons_append] at run
  rw [run.find?_beginFunction finished, Body.instructions, List.flatMap_cons, Line.steps,
    List.append_assoc, List.append_assoc, startAfter_labels]
  rfl

/-- The step that adds a label comes right before what the label stands for. -/
theorem NamedBody.exists_addLabel
    (names : AddressTable String)
    (function : NamedBody)
    (labelled : (function.body.labelSet codeLength).contains address = true)
    (isPlace : address ∈ function.body.instructions.map Instruction.ip ∨
      address = function.body.stop) :
    ∃ before after, function.steps codeLength names =
        (.beginFunction function.name, function.body.start) ::
          (before ++ (.addLabel (labelName address), address) :: after) ∧
      openAfter (some function.name) before = some function.name ∧
      ∀ rest, addressAfter (after ++ rest) = address := by
  have isLabel : labelsAt (function.body.labelSet codeLength) address = [labelName address] := by
    rw [labelsAt, if_pos labelled]
  rcases isPlace with inBody | rfl
  · obtain ⟨instruction, inInstructions, rfl⟩ := List.mem_map.mp inBody
    obtain ⟨earlier, later, divided⟩ := List.append_of_mem inInstructions
    refine ⟨earlier.flatMap fun other =>
        (function.body.line codeLength names other).steps other.ip,
      (.emit (function.body.line codeLength names instruction).2, instruction.ip) ::
        ((later.flatMap fun other => (function.body.line codeLength names other).steps other.ip) ++
          (labelsAt (function.body.labelSet codeLength) function.body.stop).map
            (fun label => (.addLabel label, function.body.stop)) ++
          [(.endFunction, function.body.stop)]),
      ?_, openAfter_lines _ _ _, fun _ => rfl⟩
    have lineLabel : (function.body.line codeLength names instruction).1 =
        [labelName instruction.ip] := isLabel
    rw [NamedBody.steps, divided]
    simp [Line.steps, lineLabel]
  · refine ⟨_, [(.endFunction, function.body.stop)], ?_,
      openAfter_lines _ function.body.instructions (function.body.line codeLength names),
      fun _ => rfl⟩
    rw [NamedBody.steps, isLabel]
    simp

/-- A label of a function stands for the address that it was made for. -/
theorem finishedLabel_eq
    (run : Steps {} (functions.flatMap (NamedBody.steps codeLength names)) builder)
    (finished : builder.current = none)
    (member : function ∈ functions)
    (labelled : (function.body.labelSet codeLength).contains address = true)
    (isPlace : address ∈ function.body.instructions.map Instruction.ip ∨
      address = function.body.stop) :
    finishedLabel? builder.functions function.name (labelName address) = some address := by
  obtain ⟨earlier, later, rfl⟩ := List.append_of_mem member
  obtain ⟨before, after, isSteps, stillOpen, isAddress⟩ :=
    function.exists_addLabel names labelled isPlace
  rw [List.flatMap_append, List.flatMap_cons, isSteps, List.cons_append, List.append_assoc,
    List.cons_append, ← List.cons_append, ← List.append_assoc] at run
  rw [run.finishedLabel_addLabel finished, isAddress]
  rw [openAfter_append, openAfter_functions]
  exact stillOpen

end Symbols

/-! ## Code -/

/-- A listed statement takes the place of its instruction. -/
theorem listedStatement_takesPlace
    (named : Bool)
    (names : AddressTable String)
    {instruction : Instruction}
    (wellFormed : instruction.WellFormed)
    (stays : ¬Crosses instruction.ip instruction.bytes) :
    (listedStatement named names instruction).TakesPlace instruction := by
  have listed := listedAs_listedStatement named names wellFormed
  refine ⟨listed.encodable wellFormed, listed.size_eq, ?_⟩
  have plain : reservedBytes instruction.bytes = _ :=
    reservedBytes_fragment (.plain instruction.opcode instruction.operands)
  rw [Crosses, plain, Statement.opcode, ← Instruction.size] at stays
  rwa [Crosses, reservedBytes_fragment, listed.opcode_eq, listed.size_eq]

theorem linked_of_not_crosses
    (functions : Array FunctionSymbols)
    {placements : List Placement}
    (stay : ∀ placement ∈ placements, ¬Crosses placement.before placement.bytes) :
    Placement.linked functions placements = placements.map (Placement.instruction functions) := by
  induction placements with
  | nil => rfl
  | cons placement placements ih =>
      obtain ⟨stayHere, stayLater⟩ := List.forall_mem_cons.mp stay
      rw [Placement.linked, gapInstructions, if_neg stayHere, List.nil_append,
        ih stayLater]
      rfl

section Code

variable {instructions : List Instruction} {instruction : Instruction}

theorem stop_le_of_mem
    (consecutive : Consecutive 0 instructions)
    (member : instruction ∈ instructions) :
    instruction.stop ≤ (codeOf instructions).size := by
  obtain ⟨before, after, rfl, place⟩ := consecutive.divide member
  simp only [codeOf_append, codeOf, Array.size_append, Instruction.stop, Instruction.size]
  omega

theorem adjacent_divide (consecutive : Consecutive 0 instructions) :
    Adjacent 0 (Body.divide instructions.toArray) := by
  apply adjacent_of_consecutive
  rwa [Body.flatMap_divide]

/-- The instructions of the functions found in code are those of the code. -/
theorem mem_of_mem_body
    {function : NamedBody}
    (member : function ∈ (nameBodies (Body.divide instructions.toArray)).toList)
    (inBody : instruction ∈ function.body.instructions) :
    instruction ∈ instructions := by
  have inBodies := List.mem_map_of_mem (f := NamedBody.body) member
  rw [map_body_nameBodies] at inBodies
  have isMember := List.mem_flatMap.mpr ⟨function.body, inBodies, inBody⟩
  rwa [Body.flatMap_divide] at isMember

theorem get?_names_iff
    (consecutive : Consecutive 0 instructions)
    {address : Nat} {name : String} :
    (functionNames (codeOf instructions).size (nameBodies (Body.divide instructions.toArray))).get?
        address = some name ↔
      ∃ function ∈ (nameBodies (Body.divide instructions.toArray)).toList,
        function.body.start = address ∧ function.name = name := by
  rw [← get?_functionNames_iff (adjacent_divide consecutive), Body.flatMap_divide]

theorem linesOf_writable
    (codeLength : Nat)
    (consecutive : Consecutive 0 instructions)
    (wellFormed : ∀ instruction ∈ instructions, instruction.WellFormed) :
    ∀ lines ∈ linesOf codeLength instructions.toArray, lines.Writable := by
  intro lines member
  obtain ⟨function, isNamed, rfl⟩ := List.mem_map.mp member
  have inBodies := List.mem_map_of_mem (f := NamedBody.body) isNamed
  rw [map_body_nameBodies] at inBodies
  exact NamedBody.writable_lines ((adjacent_divide consecutive).consecutive inBodies)
    fun instruction inBody => wellFormed instruction (mem_of_mem_body isNamed inBody)

theorem linesOf_names_nodup
    (codeLength : Nat)
    (consecutive : Consecutive 0 instructions) :
    ((linesOf codeLength instructions.toArray).map FunctionLines.name).Nodup := by
  rw [linesOf, List.map_map]
  exact names_nodup (adjacent_divide consecutive).starts_nodup

/-- The steps that place the functions found in code. -/
def stepsOf (instructions : List Instruction) : List BuildStep :=
  let codeLength := (codeOf instructions).size
  let named := nameBodies (Body.divide instructions.toArray)
  named.toList.flatMap (NamedBody.steps codeLength (functionNames codeLength named))

theorem map_stepsOf (instructions : List Instruction) :
    (stepsOf instructions).map Prod.fst =
      (linesOf (codeOf instructions).size instructions.toArray).flatMap FunctionLines.calls := by
  simp only [stepsOf, linesOf, List.map_flatMap, List.flatMap_map, NamedBody.map_steps]

/-- Instructions that stay where they are when they are placed again. -/
structure Stationary (instructions : List Instruction) : Prop where
  consecutive : Consecutive 0 instructions
  wellFormed : ∀ instruction ∈ instructions, instruction.WellFormed
  stay : ∀ instruction ∈ instructions, ¬Crosses instruction.ip instruction.bytes
  small : (codeOf instructions).size + 2 ^ 15 ≤ 2 ^ 32

namespace Stationary

variable {builder : Builder} {function : NamedBody} {instruction : Instruction}

variable (stationary : Stationary instructions)

include stationary

theorem exists_steps :
    ∃ builder, Steps {} (stepsOf instructions) builder ∧ builder.current = none := by
  obtain ⟨consecutive, wellFormed, stay, -⟩ := stationary
  apply Listing.exists_steps
  · rw [map_body_nameBodies]
    exact adjacent_divide consecutive
  · intro function member
    exact linesOf_writable _ consecutive wellFormed _ (List.mem_map_of_mem member)
  · intro function member instruction inBody
    have inCode := mem_of_mem_body member inBody
    exact listedStatement_takesPlace _ _ (wellFormed _ inCode) (stay _ inCode)
  · rfl
  · rfl
  · exact names_nodup (adjacent_divide consecutive).starts_nodup

theorem ofSteps_eq :
    Placement.ofSteps "" 0 (stepsOf instructions) =
      (nameBodies (Body.divide instructions.toArray)).toList.flatMap fun function =>
        function.body.instructions.map (function.placement (codeOf instructions).size
          (functionNames (codeOf instructions).size
            (nameBodies (Body.divide instructions.toArray)))) := by
  obtain ⟨consecutive, wellFormed, stay, -⟩ := stationary
  apply ofSteps_functions
  · rw [map_body_nameBodies]
    exact adjacent_divide consecutive
  · intro function member instruction inBody
    have inCode := mem_of_mem_body member inBody
    exact listedStatement_takesPlace _ _ (wellFormed _ inCode) (stay _ inCode)

theorem within
    (member : function ∈ (nameBodies (Body.divide instructions.toArray)).toList)
    (inBody : instruction ∈ function.body.instructions) :
    Within (codeOf instructions).size
      (function.body.isNamed (codeOf instructions).size instruction) instruction where
  small := stationary.small
  stop_le := stop_le_of_mem stationary.consecutive (mem_of_mem_body member inBody)
  targets_le := by
    intro isNamed target isTarget
    obtain ⟨-, inFunction | ⟨atStop, isEnd⟩⟩ := Body.labelled_of_isNamed inBody isNamed isTarget
    · obtain ⟨other, otherInBody, rfl⟩ := List.mem_map.mp inFunction
      have otherStop := stop_le_of_mem stationary.consecutive (mem_of_mem_body member otherInBody)
      rw [Instruction.stop] at otherStop
      omega
    · omega

theorem namesResolve
    (run : Steps {} (stepsOf instructions) builder)
    (finished : builder.current = none)
    (member : function ∈ (nameBodies (Body.divide instructions.toArray)).toList)
    (inBody : instruction ∈ function.body.instructions) :
    NamesResolve builder.functions function.name
      (function.body.isNamed (codeOf instructions).size instruction)
      (functionNames (codeOf instructions).size (nameBodies (Body.divide instructions.toArray)))
      instruction where
  labels := by
    intro isNamed target isTarget
    obtain ⟨labelled, isPlace⟩ := Body.labelled_of_isNamed inBody isNamed isTarget
    exact finishedLabel_eq run finished member labelled (isPlace.imp_right And.left)
  starts := by
    intro address name found
    obtain ⟨other, otherMember, rfl, rfl⟩ := (get?_names_iff stationary.consecutive).mp found
    exact find?_start run finished otherMember

theorem relinked
    (run : Steps {} (stepsOf instructions) builder)
    (finished : builder.current = none) :
    ∀ function ∈ (nameBodies (Body.divide instructions.toArray)).toList,
      ∀ instruction ∈ function.body.instructions,
        (function.placement (codeOf instructions).size
          (functionNames (codeOf instructions).size
            (nameBodies (Body.divide instructions.toArray))) instruction).instruction
          builder.functions = instruction ∧
        ∀ fixup ∈ (function.placement (codeOf instructions).size
          (functionNames (codeOf instructions).size
            (nameBodies (Body.divide instructions.toArray))) instruction).fixups,
          fixup.Resolvable builder.functions := by
  intro function member instruction inBody
  have wellFormed := stationary.wellFormed _ (mem_of_mem_body member inBody)
  obtain ⟨sameInstruction, resolvable⟩ := (listedAs_listedStatement _ _ wellFormed).relinked
    wellFormed (stationary.within member inBody)
    (stationary.namesResolve run finished member inBody)
  refine ⟨sameInstruction, fun fixup isFixup => ?_⟩
  obtain ⟨reference, isReference, rfl⟩ := List.mem_map.mp isFixup
  exact resolvable reference isReference

/-- Placing and linking instructions again gives these instructions. -/
theorem exists_relinked :
    ∃ builder,
      placeCalls
          ((linesOf (codeOf instructions).size instructions.toArray).flatMap FunctionLines.calls)
          {} = .ok () builder ∧
        builder.finish = .ok (linkedCode builder.functions instructions) := by
  obtain ⟨builder, run, finished⟩ := stationary.exists_steps
  have relinked := stationary.relinked run finished
  have emittable : ∀ step ∈ stepsOf instructions, step.1.Emittable := by
    intro step member
    have isCall := List.mem_map_of_mem (f := Prod.fst) member
    rw [map_stepsOf] at isCall
    obtain ⟨lines, isLines, inCalls⟩ := List.mem_flatMap.mp isCall
    exact (linesOf_writable _ stationary.consecutive stationary.wellFormed lines
      isLines).emittable step.1 inCalls
  refine ⟨builder, ?_, (run.finish_eq_ok_iff emittable _).mpr ⟨finished, ?_, ?_⟩⟩
  · rw [← map_stepsOf]
    exact placeCalls_of_steps run emittable (by rintro _ ⟨⟩)
  · rw [stationary.ofSteps_eq]
    intro placement isPlacement
    obtain ⟨function, member, inFunction⟩ := List.mem_flatMap.mp isPlacement
    obtain ⟨instruction, inBody, rfl⟩ := List.mem_map.mp inFunction
    exact (relinked function member instruction inBody).2
  · have stay : ∀ placement ∈ Placement.ofSteps "" 0 (stepsOf instructions),
        ¬Crosses placement.before placement.bytes := by
      rw [stationary.ofSteps_eq]
      intro placement isPlacement
      obtain ⟨function, member, inFunction⟩ := List.mem_flatMap.mp isPlacement
      obtain ⟨instruction, inBody, rfl⟩ := List.mem_map.mp inFunction
      have inCode := mem_of_mem_body member inBody
      exact (listedStatement_takesPlace _ _ (stationary.wellFormed _ inCode)
        (stationary.stay _ inCode)).stays
    rw [linked_of_not_crosses _ stay, stationary.ofSteps_eq, List.map_flatMap]
    have same : ∀ function ∈ (nameBodies (Body.divide instructions.toArray)).toList,
        (function.body.instructions.map (function.placement (codeOf instructions).size
          (functionNames (codeOf instructions).size
            (nameBodies (Body.divide instructions.toArray))))).map
          (Placement.instruction builder.functions) = function.body.instructions := by
      intro function member
      rw [List.map_map]
      exact (List.map_congr_left fun instruction inBody =>
        (relinked function member instruction inBody).1).trans (List.map_id' _)
    have divided := Body.flatMap_divide instructions.toArray
    rw [← map_body_nameBodies (Body.divide instructions.toArray), List.flatMap_map] at divided
    rw [List.flatMap_congr same, divided]

end Stationary

end Code

end Listing
end ScriptBytecode
