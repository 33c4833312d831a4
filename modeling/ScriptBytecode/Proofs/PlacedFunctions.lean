import ScriptBytecode.Proofs.UnitSession

/-!
# Placing functions

Finishing a code unit makes the builder calls that place the lines of its functions, fused or not,
and finishes the session of these calls.
-/

namespace ScriptBytecode

namespace Builder

/-- Makes calls one after the other and stops at the first that fails. -/
def placeCalls : List BuildCall → BuildM Unit
  | [] => pure ()
  | call :: rest => do
    let _ ← call.run
    placeCalls rest

theorem placeCalls_append (left right : List BuildCall) :
    placeCalls (left ++ right) = placeCalls left >>= fun _ => placeCalls right := by
  induction left with
  | nil => rfl
  | cons call rest ih =>
      rw [List.cons_append, placeCalls, placeCalls, ih, bind_assoc]

/-- Actions that make calls can be put together. -/
theorem forM_eq_placeCalls
    {α : Type} {elements : List α} {action : α → BuildM Unit} {calls : α → List BuildCall}
    (makesCalls : ∀ element ∈ elements, action element = placeCalls (calls element)) :
    elements.forM action = placeCalls (elements.flatMap calls) := by
  induction elements with
  | nil => rfl
  | cons element rest ih =>
      obtain ⟨here, others⟩ := List.forall_mem_cons.mp makesCalls
      rw [List.flatMap_cons, placeCalls_append, ← here, ← ih others]
      rfl

/-- Calls that all succeed make a run. -/
theorem exists_steps_of_placeCalls
    {calls : List BuildCall}
    (emittable : ∀ call ∈ calls, call.Emittable)
    {builder last : Builder}
    (between : builder.Between)
    (placed : placeCalls calls builder = .ok () last) :
    ∃ steps, Steps builder steps last ∧ steps.map Prod.fst = calls := by
  induction calls generalizing builder with
  | nil =>
      cases placed
      exact ⟨[], .nil _, rfl⟩
  | cons call rest ih =>
      obtain ⟨callEmittable, restEmittable⟩ := List.forall_mem_cons.mp emittable
      rcases step_or_error call builder with ⟨answer, next, step⟩ | ⟨error, failed⟩
      · have ran := step.run callEmittable between
        simp only [placeCalls, bind, EStateM.bind, ran] at placed
        obtain ⟨steps, run, isCalls⟩ :=
          ih restEmittable (step.between between) placed
        exact ⟨(call, answer) :: steps, .cons step run, by rw [List.map_cons, isCalls]⟩
      · simp only [placeCalls, bind, EStateM.bind, failed] at placed
        cases placed

/-! ### The calls of lines and functions -/

theorem beginFunction_eq (name : String) :
    beginFunction name = placeCalls [.beginFunction name] := by
  funext builder
  simp only [placeCalls, BuildCall.run, bind, EStateM.bind]
  cases beginFunction name builder <;> rfl

theorem addLabel_eq (label : String) : addLabel label = placeCalls [.addLabel label] := by
  funext builder
  simp only [placeCalls, BuildCall.run, bind, EStateM.bind]
  cases addLabel label builder <;> rfl

theorem endFunction_eq : endFunction = placeCalls [.endFunction] := by
  funext builder
  simp only [placeCalls, BuildCall.run, bind, EStateM.bind]
  cases endFunction builder <;> rfl

/-- The builder calls that place a function with lines and labels after the last of them. -/
def functionCalls (name : String) (lines : List Line) (trailing : List String) :
    List BuildCall :=
  [.beginFunction name] ++ lines.flatMap Line.calls ++ trailing.map .addLabel ++ [.endFunction]

theorem forM_addLabel_eq (labels : List String) :
    labels.forM addLabel = placeCalls (labels.map .addLabel) := by
  rw [forM_eq_placeCalls fun label _ => addLabel_eq label, List.map_eq_flatMap]

/-- Placing an instruction of an arena makes the calls of its line. -/
theorem placeEntry_eq
    {line : Line}
    (fewCases : line.2.caseCount ≤ maxSwitchCases) :
    CodeUnit.placeEntry line.entry = placeCalls line.calls := by
  have encoded := Statement.encode_eq_ok_iff.mpr ⟨fewCases, rfl⟩
  have emitted : (do
      let _ ← instruction line.2.fragment.bytes line.2.fragment.references : BuildM Unit) =
      placeCalls [.emit line.2] := by
    funext builder
    simp only [placeCalls, BuildCall.run, bind, EStateM.bind, emit, encoded]
  rw [Line.calls, placeCalls_append, ← forM_addLabel_eq, ← emitted]
  rfl

/-- Placing a function makes the calls of its lines. -/
theorem placeFunction_eq
    {function : FunctionCode} {lines : List Line}
    (isLines : function.arena.entries.toList = lines.map Line.entry)
    (encodable : ∀ line ∈ lines, line.2.Encodable) :
    CodeUnit.placeFunction function =
      placeCalls (functionCalls function.name lines function.arena.trailing) := by
  have entries : function.arena.entries.toList.forM CodeUnit.placeEntry =
      placeCalls (lines.flatMap Line.calls) := by
    rw [isLines, List.forM_eq_forM, List.forM_map, ← List.forM_eq_forM]
    exact forM_eq_placeCalls fun line member => placeEntry_eq (encodable line member).fewCases
  rw [functionCalls, placeCalls_append, placeCalls_append, placeCalls_append, ← entries,
    ← forM_addLabel_eq, ← beginFunction_eq, ← endFunction_eq, bind_assoc, bind_assoc]
  rfl

end Builder
open Builder

/-- The functions that finishing a unit places. -/
def CodeUnit.placedFunctions (codeUnit : CodeUnit) (fuse : Bool) : List FunctionCode :=
  (if fuse then codeUnit.finished.map fuseFunction else codeUnit.finished).toList

/-- The instructions of functions, in order. -/
def instructionsOf (functions : List FunctionCode) : List Bytes :=
  functions.flatMap fun function => function.arena.entries.toList.map Entry.bytes

/-! ## The calls that place functions -/

/-- A call whose statement, if any, can be encoded and has a property. -/
def BuildCall.Satisfies (property : Statement → Prop) : BuildCall → Prop
  | .emit statement => statement.Encodable ∧ property statement
  | _ => True

/-- The instruction of a call, if it emits one. -/
def BuildCall.bytes? : BuildCall → Option Bytes
  | .emit statement => some statement.fragment.bytes
  | _ => none

theorem BuildCall.Satisfies.emittable
    {property : Statement → Prop} {call : BuildCall}
    (satisfies : call.Satisfies property) :
    call.Emittable := by
  cases call with
  | emit statement => exact satisfies.1.emittable
  | _ => trivial

/-- The statement of a call, if it emits one. -/
def BuildCall.statement? : BuildCall → Option Statement
  | .emit statement => some statement
  | _ => none

/-- The instructions of calls are those of their statements. -/
theorem filterMap_bytes?_eq (calls : List BuildCall) :
    calls.filterMap BuildCall.bytes? =
      (calls.filterMap BuildCall.statement?).map (·.fragment.bytes) := by
  rw [List.map_filterMap]
  congr 1
  funext call
  cases call <;> rfl

theorem filterMap_statement?_labels (labels : List String) :
    (labels.map BuildCall.addLabel).filterMap BuildCall.statement? = [] := by
  rw [List.filterMap_map, List.filterMap_eq_nil_iff]
  exact fun _ _ => rfl

theorem filterMap_statement?_calls (lines : List Line) :
    (lines.flatMap Line.calls).filterMap BuildCall.statement? = lines.map Prod.snd := by
  induction lines with
  | nil => rfl
  | cons line rest ih =>
      rw [List.flatMap_cons, List.filterMap_append, ih, Line.calls,
        List.filterMap_append, filterMap_statement?_labels]
      rfl

/-- The statements of the calls of a function are those of its lines. -/
theorem filterMap_statement?_functionCalls
    (name : String)
    (lines : List Line)
    (trailing : List String) :
    (functionCalls name lines trailing).filterMap BuildCall.statement? = lines.map Prod.snd := by
  rw [functionCalls, List.filterMap_append, List.filterMap_append, List.filterMap_append,
    filterMap_statement?_labels, filterMap_statement?_calls, List.append_nil]
  exact List.append_nil _

/-- Calls that place functions and whose statements have a property. -/
structure PlacedBy (property : Statement → Prop) (functions : List FunctionCode)
    (calls : List BuildCall) : Prop where
  place : functions.forM CodeUnit.placeFunction = placeCalls calls
  satisfies : ∀ call ∈ calls, call.Satisfies property
  bytes : calls.filterMap BuildCall.bytes? = instructionsOf functions

namespace PlacedBy

variable {property : Statement → Prop} {function : FunctionCode} {functions : List FunctionCode}

theorem nil : PlacedBy property [] [] :=
  ⟨rfl, by simp, rfl⟩

theorem cons
    {calls : List BuildCall}
    (here : PlacedBy property [function] calls)
    {others : List BuildCall}
    (rest : PlacedBy property functions others) :
    PlacedBy property (function :: functions) (calls ++ others) where
  place := by
    have first : CodeUnit.placeFunction function = placeCalls calls :=
      bind_pure_unit.symm.trans here.place
    rw [placeCalls_append, ← first, ← rest.place]
    rfl
  satisfies := List.forall_mem_append.mpr ⟨here.satisfies, rest.satisfies⟩
  bytes := by
    rw [List.filterMap_append, here.bytes, rest.bytes]
    simp [instructionsOf]

/-- A function is placed by the calls of its lines. -/
theorem functionCalls
    {lines : List Line}
    (hasLines : function.HasLines lines)
    (satisfies : ∀ line ∈ lines, line.2.Encodable ∧ property line.2) :
    PlacedBy property [function]
      (functionCalls function.name lines function.arena.trailing) where
  place := by
    rw [← placeFunction_eq hasLines.entries_eq fun line member => (satisfies line member).1]
    exact bind_pure_unit
  satisfies := by
    intro call member
    simp only [Builder.functionCalls, Line.calls, List.mem_append, List.mem_flatMap,
      List.mem_map, List.mem_singleton] at member
    rcases member with ((rfl | ⟨line, isLine, ⟨_, _, rfl⟩ | rfl⟩) | ⟨_, _, rfl⟩) | rfl
    · trivial
    · trivial
    · exact satisfies line isLine
    · trivial
    · trivial
  bytes := by
    rw [filterMap_bytes?_eq, filterMap_statement?_functionCalls]
    simp [instructionsOf, hasLines.entries_eq, Line.entry, Function.comp_def]

/-- Functions whose statements have a property are placed by calls with that property, fused or
not, if the property holds of all ordinary statements. -/
theorem exists_calls
    (satisfies : ∀ function ∈ functions, function.Satisfies property)
    (ordinary : ∀ statement : Statement, statement.Ordinary → property statement) :
    (∃ calls, PlacedBy property functions calls) ∧
      ∃ calls, PlacedBy property (functions.map CodeUnit.fuseFunction) calls := by
  induction functions with
  | nil => exact ⟨⟨[], nil⟩, [], nil⟩
  | cons function rest ih =>
      obtain ⟨⟨lines, hasLines, holds⟩, restSatisfies⟩ := List.forall_mem_cons.mp satisfies
      obtain ⟨⟨calls, placed⟩, fusedCalls, fusedPlaced⟩ := ih restSatisfies
      obtain ⟨newLines, newHasLines, fused, _⟩ :=
        hasLines.fuse fun line member => (holds line member).1
      have newHolds : ∀ line ∈ newLines, line.2.Encodable ∧ property line.2 := by
        intro line member
        refine ⟨fused.encodable line member, ?_⟩
        rcases fused.known line member with known | isOrdinary
        · obtain ⟨other, isOther, same⟩ := List.mem_map.mp known
          exact same ▸ (holds other isOther).2
        · exact ordinary _ isOrdinary
      exact ⟨⟨_, (functionCalls hasLines holds).cons placed⟩,
        _, (functionCalls newHasLines newHolds).cons fusedPlaced⟩

/-- A function with symbolic targets is placed by calls with the same tokens as those that place it
after fusing. -/
theorem exists_sameTokens
    (symbolic : function.Satisfies Statement.SymbolicTargets) :
    ∃ calls fusedCalls, PlacedBy Statement.SymbolicTargets [function] calls ∧
      PlacedBy Statement.SymbolicTargets [CodeUnit.fuseFunction function] fusedCalls ∧
      ∀ natives, tokens? natives fusedCalls = tokens? natives calls := by
  obtain ⟨lines, hasLines, holds⟩ := symbolic
  obtain ⟨newLines, newHasLines, fused, trailing⟩ :=
    hasLines.fuse fun line member => (holds line member).1
  obtain ⟨targets, same⟩ := fused.symbolic fun line member => (holds line member).2
  refine ⟨_, _, functionCalls hasLines holds, functionCalls newHasLines fun line member =>
    ⟨fused.encodable line member, targets line member⟩, ?_⟩
  intro natives
  simp only [Builder.functionCalls, trailing, tokens?_append, same natives]
  rfl

/-- Functions with symbolic targets are placed by calls with the same tokens as those that place
them after fusing. -/
theorem exists_sameTokens_map
    (symbolic : ∀ function ∈ functions, function.Satisfies Statement.SymbolicTargets) :
    ∃ calls fusedCalls, PlacedBy Statement.SymbolicTargets functions calls ∧
      PlacedBy Statement.SymbolicTargets (functions.map CodeUnit.fuseFunction) fusedCalls ∧
      ∀ natives, tokens? natives fusedCalls = tokens? natives calls := by
  induction functions with
  | nil => exact ⟨[], [], nil, nil, fun _ => rfl⟩
  | cons function rest ih =>
      obtain ⟨hereSymbolic, restSymbolic⟩ := List.forall_mem_cons.mp symbolic
      obtain ⟨calls, fusedCalls, placed, fused, same⟩ := exists_sameTokens hereSymbolic
      obtain ⟨others, fusedOthers, placedRest, fusedRest, sameRest⟩ :=
        ih restSymbolic
      refine ⟨calls ++ others, fusedCalls ++ fusedOthers, placed.cons placedRest,
        fused.cons fusedRest, ?_⟩
      intro natives
      rw [tokens?_append, tokens?_append, same, sameRest]

end PlacedBy

/-- Calls that place functions one after the other, each of them by the calls of its lines. -/
inductive Places : List FunctionCode → List BuildCall → Prop
  | nil : Places [] []
  | cons
      {function : FunctionCode}
      {lines : List Line}
      {functions : List FunctionCode}
      {calls : List BuildCall}
      (hasLines : function.HasLines lines)
      (encodable : ∀ line ∈ lines, line.2.Encodable)
      (places : Places functions calls) :
      Places (function :: functions)
        (functionCalls function.name lines function.arena.trailing ++ calls)

theorem Places.placedBy
    {functions : List FunctionCode} {calls : List BuildCall}
    (places : Places functions calls) :
    PlacedBy (fun _ => True) functions calls := by
  induction places with
  | nil => exact .nil
  | cons hasLines encodable _ ih =>
      exact .cons (.functionCalls hasLines fun line member => ⟨encodable line member, trivial⟩)
        ih

/-! ## Finishing a unit -/

/-- The placed statements of a session are those of its calls. -/
theorem Placement.map_statement_ofSteps
    (function : String)
    (size : Nat)
    (steps : List BuildStep) :
    (ofSteps function size steps).map statement =
      (steps.map Prod.fst).filterMap BuildCall.statement? := by
  induction steps generalizing function size with
  | nil => rfl
  | cons step rest ih =>
      obtain ⟨call, answer⟩ := step
      cases call with
      | emit statement => exact congrArg _ (ih _ _)
      | _ => exact ih _ _

/-- The placed instructions of a session are those of its calls. -/
theorem Placement.map_bytes_ofSteps
    (function : String)
    (size : Nat)
    (steps : List BuildStep) :
    (ofSteps function size steps).map bytes =
      (steps.map Prod.fst).filterMap BuildCall.bytes? := by
  rw [filterMap_bytes?_eq, ← map_statement_ofSteps function size, List.map_map]
  rfl

namespace CodeUnit

/-- Finishing a unit finishes a session of the builder with the calls that place its functions. -/
theorem exists_finished
    {codeUnit : CodeUnit} {fuse : Bool} {code : UnitCode}
    (isFinished : codeUnit.finish fuse = .ok code)
    {property : Statement → Prop} {calls : List BuildCall}
    (placed : PlacedBy property (codeUnit.placedFunctions fuse) calls) :
    ∃ steps builder linked, Finished steps builder linked ∧ steps.map Prod.fst = calls ∧
      code = ⟨linked.pages, linked.length, codeUnit.natives, linked.functions⟩ := by
  unfold finish at isFinished
  split at isFinished
  · cases isFinished
  · simp only at isFinished
    split at isFinished
    · cases isFinished
    · rename_i builder ran
      have emittable : ∀ call ∈ calls, call.Emittable :=
        fun call member => (placed.satisfies call member).emittable
      change (codeUnit.placedFunctions fuse).forM placeFunction {} = .ok () builder at ran
      rw [placed.place] at ran
      obtain ⟨steps, run, isCalls⟩ :=
        exists_steps_of_placeCalls emittable (by rintro _ ⟨⟩) ran
      have stepsEmittable : ∀ step ∈ steps, step.1.Emittable := by
        intro step member
        apply emittable
        rw [← isCalls]
        exact List.mem_map_of_mem member
      cases linked : builder.finish with
      | error error =>
          rw [linked] at isFinished
          cases isFinished
      | ok result =>
          rw [linked] at isFinished
          cases isFinished
          obtain ⟨ended, resolvable, isLinked⟩ :=
            (run.finish_eq_ok_iff stepsEmittable result).mp linked
          exact ⟨steps, builder, result, ⟨run, stepsEmittable, ended, resolvable, isLinked⟩,
            isCalls, rfl⟩

end CodeUnit
end ScriptBytecode
