import ScriptBytecode.Proofs.RelinkedCode
import ScriptBytecode.Proofs.WrittenFunctions

/-!
# The layout of functions

The addresses of instructions, labels and functions follow from the functions alone: instructions
are placed one after the other, each at the end of the code or at the start of the next page.  A
builder that places functions with distinct names and distinct labels never fails, and what it
knows in the end is this layout.
-/

namespace ScriptBytecode

open Builder

/-! ## Addresses -/

/-- Instructions at the addresses they get when they are placed after code of a given size. -/
def placeEntries : (size : Nat) → List Entry → List (Nat × Entry)
  | _, [] => []
  | size, entry :: rest =>
    let address := addressFor size entry.bytes
    (address, entry) :: placeEntries (address + entry.bytes.size) rest

/-- The size of the code after instructions were placed. -/
def sizeAfter : (size : Nat) → List Entry → Nat
  | size, [] => size
  | size, entry :: rest =>
    sizeAfter (addressFor size entry.bytes + entry.bytes.size) rest

/-- What the references of an instruction name, in order. -/
def Entry.targets (entry : Entry) : List (ReferenceKind × String) :=
  entry.references.map fun reference => (reference.kind, reference.target)

/-- The labels of placed instructions with their addresses. -/
def labelsIn (placed : List (Nat × Entry)) : List (String × Nat) :=
  placed.flatMap fun (address, entry) => entry.labels.map (·, address)

/-- The references of placed instructions of a function. -/
def fixupsIn (function : String) (placed : List (Nat × Entry)) : List Fixup :=
  placed.flatMap fun (address, entry) => entry.references.map (fixupOf function address)

theorem map_snd_placeEntries (size : Nat) (entries : List Entry) :
    (placeEntries size entries).map Prod.snd = entries := by
  induction entries generalizing size with
  | nil => rfl
  | cons entry rest ih =>
      rw [placeEntries, List.map_cons, ih]

/-- Placing gives every label an address. -/
theorem map_fst_labelsIn (size : Nat) (entries : List Entry) :
    (labelsIn (placeEntries size entries)).map Prod.fst = entries.flatMap Entry.labels := by
  conv_rhs => rw [← map_snd_placeEntries size entries]
  simp [labelsIn, List.map_flatMap, List.flatMap_map, Function.comp_def]

/-- Placing keeps what references name. -/
theorem map_target_fixupsIn (function : String) (size : Nat) (entries : List Entry) :
    (fixupsIn function (placeEntries size entries)).map
        (fun fixup => (fixup.function, fixup.kind, fixup.target)) =
      (entries.flatMap Entry.targets).map (function, ·) := by
  conv_rhs => rw [← map_snd_placeEntries size entries]
  simp [fixupsIn, fixupOf, Entry.targets, List.map_flatMap, List.flatMap_map, Function.comp_def]

theorem sizeAfter_append (size : Nat) (entries others : List Entry) :
    sizeAfter size (entries ++ others) = sizeAfter (sizeAfter size entries) others := by
  induction entries generalizing size with
  | nil => rfl
  | cons entry rest ih => exact ih _

namespace FunctionCode

variable {function : FunctionCode} {lines : FunctionLines}

/-- The instructions of a function, in order. -/
def entries (function : FunctionCode) : List Entry :=
  function.arena.entries.toList

/-- The labels of a function, in order. -/
def labels (function : FunctionCode) : List String :=
  function.entries.flatMap Entry.labels ++ function.arena.trailing

/-- What the references of a function name, in order. -/
def targets (function : FunctionCode) : List (ReferenceKind × String) :=
  function.entries.flatMap Entry.targets

/-- A function that is placed after code of a given size: a function without instructions stands
where it began, and the labels after the last instruction stand where the function ends. -/
def symbolsAt (function : FunctionCode) (size : Nat) : FunctionSymbols where
  name := function.name
  start := ((placeEntries size function.entries).head?.map Prod.fst).getD size
  labels := labelsIn (placeEntries size function.entries) ++
    function.arena.trailing.map (·, sizeAfter size function.entries)

/-- The symbols of functions that are placed one after the other. -/
def symbolsFrom : (size : Nat) → List FunctionCode → List FunctionSymbols
  | _, [] => []
  | size, function :: rest =>
    function.symbolsAt size :: symbolsFrom (sizeAfter size function.entries) rest

/-- The references of functions that are placed one after the other, in order. -/
def fixupsFrom : (size : Nat) → List FunctionCode → List Fixup
  | _, [] => []
  | size, function :: rest =>
    fixupsIn function.name (placeEntries size function.entries) ++
      fixupsFrom (sizeAfter size function.entries) rest

/-- Placing keeps the names and labels of functions. -/
theorem map_symbolsFrom (size : Nat) (functions : List FunctionCode) :
    (symbolsFrom size functions).map (fun symbols => (symbols.name, symbols.labels.map Prod.fst)) =
      functions.map fun function => (function.name, function.labels) := by
  induction functions generalizing size with
  | nil => rfl
  | cons function rest ih =>
      have labels : (function.symbolsAt size).labels.map Prod.fst = function.labels := by
        simp [symbolsAt, labels, map_fst_labelsIn, Function.comp_def]
      rw [symbolsFrom, List.map_cons, ih, labels]
      rfl

/-- Placing keeps what the references of functions name. -/
theorem map_fixupsFrom (size : Nat) (functions : List FunctionCode) :
    (fixupsFrom size functions).map (fun fixup => (fixup.function, fixup.kind, fixup.target)) =
      functions.flatMap fun function => function.targets.map (function.name, ·) := by
  induction functions generalizing size with
  | nil => rfl
  | cons function rest ih =>
      rw [fixupsFrom, List.map_append, ih, map_target_fixupsIn,
        List.flatMap_cons]
      rfl

theorem Follows.entries_eq
    (follows : function.Follows lines) :
    function.entries = lines.lines.map Line.entry :=
  follows.hasLines.entries_eq

theorem Follows.labels_eq
    (follows : function.Follows lines) :
    function.labels = lines.labels := by
  rw [labels, follows.entries_eq, List.flatMap_map, follows.trailing]
  rfl

end FunctionCode

/-- Symbols that differ from others at most in the order of the labels. -/
structure FunctionSymbols.SameAs (symbols other : FunctionSymbols) : Prop where
  name : symbols.name = other.name
  start : symbols.start = other.start
  labels : symbols.labels.Perm other.labels

/-! ## Placing a function -/

namespace Builder

variable {builder : Builder} {size : Nat}

/-- A builder that has placed code of a given size with some references, and that is writing a
function: its address if it is known, its labels that have an address, and those that wait for
one. -/
structure Writing (functions : Array FunctionSymbols) (name : String) (start : Option Nat)
    (bound : List (String × Nat)) (pending : List String) (size : Nat) (fixups : List Fixup)
    (builder : Builder) : Prop where
  sameFunctions : builder.functions = functions
  hasSize : builder.code.size = size
  hasFixups : (builder.settled ++ builder.recent).toList = fixups
  isOpen : ∃ labels : List (String × Nat), labels.Perm bound ∧
    builder.current = some ⟨name, start, labels, pending, false⟩

namespace Writing

variable {functions : Array FunctionSymbols} {name : String} {start : Option Nat}
  {bound : List (String × Nat)} {pending : List String} {size : Nat} {fixups : List Fixup}
  {builder : Builder}

variable (writing : Writing functions name start bound pending size fixups builder)

include writing

theorem addLabel
    {label : String}
    (notEmpty : label.isEmpty = false)
    (fresh : label ∉ bound.map Prod.fst ++ pending) :
    ∃ next, Step builder (.addLabel label) size next ∧
      Writing functions name start bound (pending ++ [label]) size fixups next := by
  obtain ⟨sameFunctions, rfl, hasFixups, labels, reordered, current⟩ := writing
  have unknown : OpenFunction.hasLabel ⟨name, start, labels, pending, false⟩ label = false := by
    rw [List.mem_append, not_or, ← (reordered.map Prod.fst).mem_iff] at fresh
    have notBound : labels.lookup label = none := by
      rw [List.lookup_eq_none_iff]
      intro item member
      have other : item.1 ≠ label := fun same => fresh.1 (same ▸ List.mem_map_of_mem member)
      simpa using other.symm
    simp [OpenFunction.hasLabel, notBound, fresh.2]
  exact ⟨_, .addLabel label _ current notEmpty unknown, sameFunctions, rfl, hasFixups, labels,
    reordered, rfl⟩

theorem addLabels
    {labels : List String}
    (notEmpty : ∀ label ∈ labels, label.isEmpty = false)
    (nodup : (bound.map Prod.fst ++ pending ++ labels).Nodup) :
    ∃ next, Steps builder (labels.map fun label => (.addLabel label, size)) next ∧
      Writing functions name start bound (pending ++ labels) size fixups next := by
  induction labels generalizing builder pending with
  | nil => exact ⟨builder, .nil builder, by rwa [List.append_nil]⟩
  | cons label labels ih =>
      obtain ⟨notEmptyHere, notEmptyLater⟩ := List.forall_mem_cons.mp notEmpty
      have fresh : label ∉ bound.map Prod.fst ++ pending := fun repeated =>
        (List.nodup_append.mp nodup).2.2 label repeated label List.mem_cons_self rfl
      obtain ⟨middle, step, middleWriting⟩ := writing.addLabel notEmptyHere fresh
      obtain ⟨next, run, nextWriting⟩ := ih middleWriting notEmptyLater
        (by simpa using nodup)
      exact ⟨next, .cons step run, by simpa using nextWriting⟩

theorem emit
    {statement : Statement}
    (fewCases : statement.caseCount ≤ maxSwitchCases)
    {address : Nat}
    (isAddress : addressFor size statement.fragment.bytes = address) :
    ∃ next, Step builder (.emit statement) address next ∧
      Writing functions name (some (start.getD address)) (bound ++ pending.map (·, address)) []
        (address + statement.fragment.bytes.size)
        (fixups ++ statement.fragment.references.map (fixupOf name address)) next := by
  obtain ⟨sameFunctions, rfl, hasFixups, labels, reordered, current⟩ := writing
  subst isAddress
  refine ⟨_, .emit statement _ current fewCases, sameFunctions, ?_, ?_, _, ?_, rfl⟩
  · simp only [afterPlacing, addressFor, Array.size_append]
  · simp [afterPlacing, ← hasFixups]
  · exact List.perm_append_comm.trans (reordered.append_right _)

omit writing

/-- The lines of a function are placed at the addresses of the layout. -/
theorem lines
    (writing : Writing functions name start bound [] size fixups builder)
    {lines : List Line}
    (encodable : ∀ line ∈ lines, line.2.Encodable)
    (notEmpty : ∀ label ∈ lines.flatMap Prod.fst, label.isEmpty = false)
    (nodup : (bound.map Prod.fst ++ lines.flatMap Prod.fst).Nodup) :
    ∃ next steps, Steps builder steps next ∧ steps.map Prod.fst = lines.flatMap Line.calls ∧
      Writing functions name
        (start.or ((placeEntries size (lines.map Line.entry)).head?.map Prod.fst))
        (bound ++ labelsIn (placeEntries size (lines.map Line.entry))) []
        (sizeAfter size (lines.map Line.entry))
        (fixups ++ fixupsIn name (placeEntries size (lines.map Line.entry))) next := by
  induction lines generalizing builder start bound size fixups with
  | nil =>
      refine ⟨builder, [], .nil builder, rfl, ?_⟩
      simpa [placeEntries, sizeAfter, labelsIn, fixupsIn] using writing
  | cons line lines ih =>
      obtain ⟨encodableHere, encodableLater⟩ := List.forall_mem_cons.mp encodable
      rw [List.flatMap_cons] at notEmpty nodup
      rw [List.forall_mem_append] at notEmpty
      rw [← List.append_assoc] at nodup
      obtain ⟨labelled, labelSteps, labelledWriting⟩ := writing.addLabels notEmpty.1
        (by simpa using (List.nodup_append.mp nodup).1)
      obtain ⟨emitted, step, emittedWriting⟩ :=
        labelledWriting.emit encodableHere.fewCases rfl
      obtain ⟨next, steps, run, isCalls, nextWriting⟩ :=
        ih emittedWriting encodableLater notEmpty.2
          (by simpa [Function.comp_def] using nodup)
      refine ⟨next, _, (labelSteps.append (.cons step (.nil _))).append run, ?_, ?_⟩
      · simp [isCalls, Line.calls, Function.comp_def]
      · simpa [placeEntries, sizeAfter, labelsIn, fixupsIn, Line.entry] using nextWriting

end Writing

/-- A function with a new name is placed as the layout says. -/
theorem exists_place_function
    {function : FunctionCode} {lines : FunctionLines}
    (follows : function.Follows lines)
    (writable : lines.Writable)
    (outside : builder.current = none)
    (hasSize : builder.code.size = size)
    (fresh : builder.functions.any (·.name == function.name) = false) :
    ∃ next steps symbols, Steps builder steps next ∧ steps.map Prod.fst = lines.calls ∧
      next.current = none ∧ next.code.size = sizeAfter size function.entries ∧
      next.functions = builder.functions.push symbols ∧
      symbols.SameAs (function.symbolsAt size) ∧
      (next.settled ++ next.recent).toList = (builder.settled ++ builder.recent).toList ++
        fixupsIn function.name (placeEntries size function.entries) := by
  obtain ⟨encodable, nodup, notEmpty⟩ := writable
  rw [FunctionLines.labels] at nodup notEmpty
  rw [List.forall_mem_append] at notEmpty
  have begun := Step.beginFunction function.name outside fresh
  have begunWriting : Writing builder.functions function.name none [] [] size
      (builder.settled ++ builder.recent).toList
      { builder with current := some { name := function.name } } :=
    ⟨rfl, hasSize, rfl, [], .refl _, rfl⟩
  obtain ⟨written, writtenSteps, writes, isCalls, writtenWriting⟩ :=
    begunWriting.lines encodable notEmpty.1 (by simpa using (List.nodup_append.mp nodup).1)
  obtain ⟨last, labelSteps, lastWriting⟩ := writtenWriting.addLabels notEmpty.2 (by
    rw [List.nil_append, map_fst_labelsIn, List.append_nil, List.flatMap_map]
    exact nodup)
  rw [← follows.entries_eq] at lastWriting
  obtain ⟨sameFunctions, lastSize, hasFixups, labels, reordered, current⟩ := lastWriting
  have ended := Step.endFunction _ current
  refine ⟨_, _, _,
    (((Steps.cons begun (.nil _)).append writes).append labelSteps).append (.cons ended (.nil _)),
    ?_, rfl, lastSize, by rw [sameFunctions], ?_, hasFixups⟩
  · simp [isCalls, FunctionLines.calls, functionCalls, follows.name, Function.comp_def]
  · refine ⟨rfl, ?_, ?_⟩
    · -- Only a function without instructions has no address yet, and its code ends where it began.
      rw [lastSize]
      cases isEmpty : function.entries <;>
        simp [OpenFunction.close, OpenFunction.bindAt, FunctionCode.symbolsAt, isEmpty,
          placeEntries, sizeAfter]
    · rw [lastSize]
      simp only [OpenFunction.close, OpenFunction.bindAt, FunctionCode.symbolsAt, List.nil_append,
        follows.trailing]
      exact List.perm_append_comm.trans (reordered.append_right _)

/-- Functions with distinct names are placed as the layout says. -/
theorem exists_place_functions
    {functions : List FunctionCode} {allLines : List FunctionLines}
    (follow : List.Forall₂ FunctionCode.Follows functions allLines)
    (writable : ∀ lines ∈ allLines, lines.Writable)
    (outside : builder.current = none)
    (hasSize : builder.code.size = size)
    (namesNodup : (builder.functions.toList.map FunctionSymbols.name ++
      functions.map FunctionCode.name).Nodup) :
    ∃ next steps symbols, Steps builder steps next ∧
      steps.map Prod.fst = allLines.flatMap FunctionLines.calls ∧ next.current = none ∧
      next.code.size = sizeAfter size (functions.flatMap FunctionCode.entries) ∧
      next.functions.toList = builder.functions.toList ++ symbols ∧
      List.Forall₂ FunctionSymbols.SameAs symbols (FunctionCode.symbolsFrom size functions) ∧
      (next.settled ++ next.recent).toList = (builder.settled ++ builder.recent).toList ++
        FunctionCode.fixupsFrom size functions := by
  induction follow generalizing builder size with
  | nil =>
      exact ⟨builder, [], [], .nil builder, rfl, outside, hasSize, by simp, .nil,
        by simp [FunctionCode.fixupsFrom]⟩
  | @cons function lines functions allLines here later ih =>
      obtain ⟨writableHere, writableLater⟩ := List.forall_mem_cons.mp writable
      have fresh : builder.functions.any (·.name == function.name) = false := by
        rw [Array.any_eq_false']
        intro symbols member
        have inNames : symbols.name ∈ builder.functions.toList.map FunctionSymbols.name :=
          List.mem_map_of_mem (Array.mem_toList_iff.mpr member)
        have different := (List.nodup_append.mp namesNodup).2.2 _ inNames function.name
          List.mem_cons_self
        simpa using different
      obtain ⟨middle, steps, symbols, run, isCalls, middleOutside, middleSize, middleFunctions,
        sameHere, middleFixups⟩ :=
        exists_place_function here writableHere outside hasSize fresh
      obtain ⟨next, laterSteps, laterSymbols, laterRun, laterCalls, nextOutside, nextSize,
        nextFunctions, sameLater, nextFixups⟩ :=
        ih writableLater middleOutside middleSize (by
          simpa [middleFunctions, sameHere.name, FunctionCode.symbolsAt] using namesNodup)
      refine ⟨next, steps ++ laterSteps, symbols :: laterSymbols, run.append laterRun, ?_,
        nextOutside, ?_, ?_, .cons sameHere sameLater, ?_⟩
      · simp [isCalls, laterCalls]
      · rw [nextSize, List.flatMap_cons, sizeAfter_append]
      · simp [nextFunctions, middleFunctions]
      · rw [nextFixups, middleFixups, List.append_assoc]
        rfl

end Builder
end ScriptBytecode
