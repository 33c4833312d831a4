import ScriptBytecode.Proofs.RelativeOperations

/-!
# Positions in token streams

The position of a label or a function in a token stream is the number of operations before it.  In
linked code, this is the number of operations at addresses below that of the label or function.
So lifted code, relative to the order of its operations, can be read off the token stream.
-/

namespace ScriptBytecode

open Statement Builder

/-! ## Positions -/

/-- The labels that are placed before the open function ends, with their positions, given the
position where the tokens begin. -/
def labelPositions : (position : Nat) → List Token → List (String × Nat)
  | _, [] => []
  | position, .label name :: rest => (name, position) :: labelPositions position rest
  | position, .operation _ :: rest => labelPositions (position + 1) rest
  | _, .endFunction :: _ => []
  | position, .beginFunction _ :: rest => labelPositions position rest

/-- The functions with their positions and those of their labels. -/
def functionPositions : (position : Nat) → List Token → List (String × Nat × List (String × Nat))
  | _, [] => []
  | position, .beginFunction name :: rest =>
    (name, position, labelPositions position rest) :: functionPositions position rest
  | position, .operation _ :: rest => functionPositions (position + 1) rest
  | position, .label _ :: rest => functionPositions position rest
  | position, .endFunction :: rest => functionPositions position rest

/-- The operations of tokens, with the positions of labels and functions for their addresses. -/
def positionedOperations (tokens : List Token) : List Operation :=
  let positions := functionPositions 0 tokens
  (operationsIn "" tokens).map fun (function, operation) =>
    operation (fun label => ((positions.lookup function).bind (·.2.lookup label)).getD 0)
      (fun called => ((positions.lookup called).map (·.1)).getD 0)

theorem lookup_map_snd
    {α β : Type}
    (entries : List (String × α))
    (change : α → β)
    (key : String) :
    (entries.map (Prod.map id change)).lookup key =
      (entries.lookup key).map change := by
  induction entries with
  | nil => rfl
  | cons entry rest ih =>
      obtain ⟨name, value⟩ := entry
      rw [List.map_cons, Prod.map_apply, id_eq, List.lookup_cons, List.lookup_cons,
        ih]
      cases key == name <;> rfl

section Operations

variable (operations : List SymbolicOperation) (tokens : List Token) (position : Nat)

theorem labelPositions_operations :
    labelPositions position (operations.map .operation ++ tokens) =
      labelPositions (position + operations.length) tokens := by
  induction operations generalizing position with
  | nil => rfl
  | cons operation rest ih =>
      rw [List.map_cons, List.cons_append, labelPositions, ih,
        List.length_cons, Nat.add_assoc, Nat.add_comm 1]

theorem functionPositions_operations :
    functionPositions position (operations.map .operation ++ tokens) =
      functionPositions (position + operations.length) tokens := by
  induction operations generalizing position with
  | nil => rfl
  | cons operation rest ih =>
      rw [List.map_cons, List.cons_append, functionPositions, ih,
        List.length_cons, Nat.add_assoc, Nat.add_comm 1]

end Operations

/-! ## Addresses of operations -/

/-- The addresses of the operations of a session, in order. -/
def operationAddresses (natives : Array UInt64) : List BuildStep → List Nat
  | [] => []
  | (.emit statement, address) :: rest =>
    List.replicate ((statement.operations? natives).getD []).length address ++
      operationAddresses natives rest
  | _ :: rest => operationAddresses natives rest

theorem Placement.addresses_operations?
    {natives : Array UInt64} {function : String} {size : Nat} {steps : List BuildStep}
    {operations : List (Placement × SymbolicOperation)}
    (found : operations? natives (ofSteps function size steps) = some operations) :
    operations.map (·.1.address) = operationAddresses natives steps := by
  induction steps generalizing function size operations with
  | nil =>
      cases found
      rfl
  | cons step rest ih =>
      obtain ⟨call, answer⟩ := step
      cases call with
      | emit statement =>
          obtain ⟨here, isHere, found⟩ := Option.bind_eq_some_iff.mp found
          obtain ⟨others, isOthers, found⟩ := Option.bind_eq_some_iff.mp found
          cases found
          simp only at isHere
          simp [operationAddresses, isHere, ih isOthers, Function.comp_def,
            List.map_const']
      | beginFunction name => exact ih found
      | addLabel label => exact ih found
      | endFunction => exact ih found

namespace Builder

/-- The number of addresses below another. -/
def countBelow (addresses : List Nat) (target : Nat) : Nat :=
  addresses.countP (· < target)

/-- Addresses that are divided at a position: those before it are below the size of the code. -/
structure Divided (addresses : List Nat) (position size : Nat) (later : List Nat) : Prop where
  exists_earlier : ∃ earlier, addresses = earlier ++ later ∧ earlier.length = position ∧
    ∀ address ∈ earlier, address < size

theorem Divided.countBelow_eq
    {addresses later : List Nat} {position size : Nat}
    (divided : Divided addresses position size later)
    {target : Nat}
    (notEarlier : size ≤ target)
    (notLater : ∀ address ∈ later, target ≤ address) :
    countBelow addresses target = position := by
  obtain ⟨earlier, rfl, rfl, below⟩ := divided.exists_earlier
  have allEarlier : earlier.countP (· < target) = earlier.length :=
    List.countP_eq_length.mpr fun address member => by
      have := below address member
      simp
      omega
  have noneLater : later.countP (· < target) = 0 :=
    List.countP_eq_zero.mpr fun address member => by
      simpa using notLater address member
  rw [countBelow, List.countP_append, allEarlier, noneLater, Nat.add_zero]

/-- The functions that begin in a session, with their addresses and those of their labels. -/
def symbolsIn : List BuildStep → List (String × Nat × List (String × Nat))
  | [] => []
  | (.beginFunction name, length) :: rest =>
    (name, startAfter length rest, labelsAfter rest) :: symbolsIn rest
  | _ :: rest => symbolsIn rest

/-- A function that was not there before has the symbols that can be read off the session. -/
theorem Steps.find?_eq_lookup
    {builder last : Builder} {steps : List BuildStep}
    (run : Steps builder steps last)
    (finished : last.current = none)
    (nameFree : builder.NameFree)
    {function : String}
    (fresh : builder.functions.find? (·.name == function) = none)
    (notOpen : ∀ opened, builder.current = some opened → opened.name ≠ function) :
    (last.functions.find? (·.name == function)).map (·.start) =
        ((symbolsIn steps).lookup function).map (·.1) ∧
      ∀ label, finishedLabel? last.functions function label =
        ((symbolsIn steps).lookup function).bind (·.2.lookup label) := by
  induction run with
  | nil => simp [fresh, finishedLabel?, symbolsIn]
  | @cons state next last call answer steps step rest ih =>
      have nextFree := step.nameFree nameFree
      cases step with
      | beginFunction name outside isFresh =>
          by_cases same : name = function
          · subst same
            obtain ⟨symbols, found, start, labels⟩ :=
              rest.symbols_of_current finished nextFree rfl
            simp only at found
            simp [finishedLabel?, found, start, labels, symbolsIn]
          · have others := ih finished nextFree fresh
              (by rintro _ ⟨⟩; exact same)
            simpa [symbolsIn, List.lookup_cons, beq_eq_false_iff_ne.mpr (Ne.symm same)] using others
      | addLabel label opened current notEmpty isFresh =>
          exact ih finished nextFree fresh
            (by rintro _ ⟨⟩; exact notOpen opened current)
      | emit statement opened current fewCases =>
          exact ih finished nextFree fresh
            (by rintro _ ⟨⟩; exact notOpen opened current)
      | endFunction opened current =>
          refine ih finished nextFree ?_ (by rintro _ ⟨⟩)
          rw [Array.find?_push, fresh]
          simp [OpenFunction.close, notOpen opened current]

/-! ## Addresses and positions of a run -/

section Run

variable {builder last : Builder} {steps : List BuildStep} {tokens : List Token}

/-- The operations of a run, and the end of the code, are behind the code that was there before. -/
theorem Steps.size_le_operationAddresses
    (run : Steps builder steps last)
    (natives : Array UInt64) :
    ∀ address ∈ operationAddresses natives steps ++ [last.code.size],
      builder.code.size ≤ address := by
  induction run with
  | nil => simp [operationAddresses]
  | @cons state next last call answer steps step rest ih =>
      have grown := step.size_le
      cases step with
      | emit statement opened current fewCases =>
          intro address member
          rw [operationAddresses, List.append_assoc] at member
          rcases List.mem_append.mp member with here | later
          · rw [List.eq_of_mem_replicate here]
            exact le_addressFor _ _
          · exact Nat.le_trans grown (ih address later)
      | beginFunction name outside fresh => exact ih
      | addLabel label opened current notEmpty fresh => exact ih
      | endFunction opened current => exact ih

/-- A function that has no instruction yet starts where its next label would stand. -/
theorem Steps.startAfter_eq
    (run : Steps builder steps last)
    (finished : last.current = none)
    (inFunction : builder.current ≠ none) :
    startAfter builder.code.size steps = addressAfter steps := by
  induction run with
  | nil => exact absurd finished inFunction
  | cons step rest ih =>
      cases step with
      | beginFunction name outside fresh => exact absurd outside inFunction
      | addLabel label opened current notEmpty fresh =>
          exact ih finished (by simp)
      | emit statement opened current fewCases => rfl
      | endFunction opened current => rfl

/-- A label stands behind the code that is there and not behind any operation to come. -/
theorem Steps.addressAfter_bounds
    (run : Steps builder steps last)
    (finished : last.current = none)
    (inFunction : builder.current ≠ none)
    (natives : Array UInt64) :
    builder.code.size ≤ addressAfter steps ∧
      ∀ address ∈ operationAddresses natives steps ++ [last.code.size],
        addressAfter steps ≤ address := by
  have behind := run.size_le_operationAddresses natives
  induction run with
  | nil => exact absurd finished inFunction
  | @cons state next last call answer steps step rest ih =>
      have restBehind := rest.size_le_operationAddresses natives
      cases step with
      | beginFunction name outside fresh => exact absurd outside inFunction
      | addLabel label opened current notEmpty fresh =>
          exact ih finished (by simp) restBehind
      | emit statement opened current fewCases =>
          refine ⟨le_addressFor _ _, ?_⟩
          intro address member
          rw [operationAddresses, List.append_assoc] at member
          rcases List.mem_append.mp member with here | later
          · exact Nat.le_of_eq (List.eq_of_mem_replicate here).symm
          · have notBefore := restBehind address later
            simp only [afterPlacing, Array.size_append] at notBefore
            simp only [addressAfter, addressFor]
            omega
      | endFunction opened current => exact ⟨Nat.le_refl _, behind⟩

variable {natives : Array UInt64} {addresses : List Nat} {position : Nat}

/-- The number of operations below the next label of an open function is its position. -/
theorem Steps.countBelow_addressAfter
    (run : Steps builder steps last)
    (finished : last.current = none)
    (inFunction : builder.current ≠ none)
    (divided : Divided addresses position builder.code.size
      (operationAddresses natives steps ++ [last.code.size])) :
    countBelow addresses (addressAfter steps) = position := by
  obtain ⟨notEarlier, notLater⟩ := run.addressAfter_bounds finished inFunction natives
  exact divided.countBelow_eq notEarlier notLater

/-- Behind an instruction, the position has moved by the number of its operations. -/
theorem Divided.emit
    {statement : Statement} {later : List Nat}
    (divided : Divided addresses position builder.code.size
      (operationAddresses natives
        ((.emit statement, addressFor builder.code.size statement.fragment.bytes) :: steps) ++
        later))
    {operations : List SymbolicOperation}
    (found : statement.operations? natives = some operations)
    (function : OpenFunction) :
    Divided addresses (position + operations.length)
      (builder.afterPlacing function statement.fragment).code.size
      (operationAddresses natives steps ++ later) := by
  obtain ⟨earlier, divides, rfl, below⟩ := divided.exists_earlier
  have positive := statement.size_fragment_pos
  have grown := le_addressFor builder.code.size statement.fragment.bytes
  have newSize : (builder.afterPlacing function statement.fragment).code.size =
      addressFor builder.code.size statement.fragment.bytes + statement.fragment.bytes.size := by
    simp only [afterPlacing, addressFor, Array.size_append]
  refine ⟨earlier ++ List.replicate operations.length
    (addressFor builder.code.size statement.fragment.bytes), ?_, by simp, ?_⟩
  · simp [divides, operationAddresses, found]
  · intro address member
    rw [newSize]
    rcases List.mem_append.mp member with before | here
    · have := below address before
      omega
    · rw [List.eq_of_mem_replicate here]
      omega

/-- The number of operations below each label that is placed up to the end of the function is its
position. -/
theorem Steps.labelPositions_eq
    (run : Steps builder steps last)
    (finished : last.current = none)
    (inFunction : builder.current ≠ none)
    (divided : Divided addresses position builder.code.size
      (operationAddresses natives steps ++ [last.code.size]))
    (isTokens : tokens? natives (steps.map Prod.fst) = some tokens) :
    (labelsAfter steps).map (Prod.map id (countBelow addresses)) =
      labelPositions position tokens := by
  induction run generalizing position tokens with
  | nil => exact absurd finished inFunction
  | @cons state next last call answer steps step rest ih =>
      obtain ⟨here, isHere, isTokens⟩ := Option.bind_eq_some_iff.mp isTokens
      obtain ⟨others, isOthers, isTokens⟩ := Option.bind_eq_some_iff.mp isTokens
      cases isTokens
      cases step with
      | beginFunction name outside fresh => exact absurd outside inFunction
      | addLabel label opened current notEmpty fresh =>
          cases isHere
          have count := rest.countBelow_addressAfter finished (Option.some_ne_none _) divided
          have labels := ih finished (Option.some_ne_none _) divided isOthers
          simp only [labelsAfter, List.map_cons, Prod.map, labels, count]
          rfl
      | emit statement opened current fewCases =>
          obtain ⟨operations, found, rfl⟩ := Option.map_eq_some_iff.mp isHere
          rw [labelPositions_operations]
          exact ih finished (by simp [afterPlacing])
            (divided.emit found opened) isOthers
      | endFunction opened current =>
          cases isHere
          rfl

/-- The number of operations below each function and label of a session is its position. -/
theorem Steps.functionPositions_eq
    (run : Steps builder steps last)
    (finished : last.current = none)
    (divided : Divided addresses position builder.code.size
      (operationAddresses natives steps ++ [last.code.size]))
    (isTokens : tokens? natives (steps.map Prod.fst) = some tokens) :
    (symbolsIn steps).map (Prod.map id (Prod.map (countBelow addresses)
        (List.map (Prod.map id (countBelow addresses))))) =
      functionPositions position tokens := by
  induction run generalizing position tokens with
  | nil =>
      cases isTokens
      rfl
  | @cons state next last call answer steps step rest ih =>
      obtain ⟨here, isHere, isTokens⟩ := Option.bind_eq_some_iff.mp isTokens
      obtain ⟨others, isOthers, isTokens⟩ := Option.bind_eq_some_iff.mp isTokens
      cases isTokens
      cases step with
      | beginFunction name outside fresh =>
          cases isHere
          have start := rest.startAfter_eq finished (Option.some_ne_none _)
          have count := rest.countBelow_addressAfter finished (Option.some_ne_none _) divided
          have labels := rest.labelPositions_eq finished (Option.some_ne_none _) divided isOthers
          have functions := ih finished divided isOthers
          simp only at start
          simp only [symbolsIn, List.map_cons, functions, Prod.map, labels, start, count]
          rfl
      | addLabel label opened current notEmpty fresh =>
          cases isHere
          have functions := ih finished divided isOthers
          exact functions
      | emit statement opened current fewCases =>
          obtain ⟨operations, found, rfl⟩ := Option.map_eq_some_iff.mp isHere
          rw [functionPositions_operations]
          exact ih finished (divided.emit found opened) isOthers
      | endFunction opened current =>
          cases isHere
          have functions := ih finished divided isOthers
          exact functions

end Run

/-! ## Lifting a finished session -/

namespace Finished

variable {steps : List BuildStep} {builder : Builder} {result : LinkedCode} {natives : Array UInt64}
    {tokens : List Token} {operations : List (Placement × SymbolicOperation)}

variable (finished : Finished steps builder result)

include finished

/-- In linked code, the number of operations below a label or a function is its position. -/
theorem countBelow_eq_position
    (isTokens : tokens? natives (steps.map Prod.fst) = some tokens)
    (function : String) :
    (∀ label, countBelow (operationAddresses natives steps ++ [result.length])
        (labelOf builder.functions function label) =
          (((functionPositions 0 tokens).lookup function).bind (·.2.lookup label)).getD 0) ∧
      countBelow (operationAddresses natives steps ++ [result.length])
        (startOf builder.functions function) =
          (((functionPositions 0 tokens).lookup function).map (·.1)).getD 0 := by
  have divided : Divided (operationAddresses natives steps ++ [builder.code.size]) 0 0
      (operationAddresses natives steps ++ [builder.code.size]) :=
    ⟨[], rfl, rfl, by simp⟩
  obtain ⟨start, labels⟩ := finished.run.find?_eq_lookup finished.ended (by rintro _ ⟨⟩)
    (Array.find?_empty) (by rintro _ ⟨⟩)
  rw [finished.length_eq,
    ← finished.run.functionPositions_eq finished.ended divided isTokens, lookup_map_snd]
  constructor
  · intro label
    rw [labelOf, labels]
    cases (symbolsIn steps).lookup function with
    | none => simp [countBelow]
    | some symbols =>
        simp only [Option.bind_some, Option.map_some, Prod.map_snd, lookup_map_snd]
        cases symbols.2.lookup label <;> simp [countBelow]
  · rw [startOf, start]
    cases (symbolsIn steps).lookup function <;> simp [countBelow]

/-- The operations of placed statements, with targets relative to the order of the operations,
are those of the tokens. -/
theorem map_mapTargets
    (symbolic : ∀ placement ∈ Placement.ofSteps "" 0 steps, placement.statement.SymbolicTargets)
    (isTokens : tokens? natives (steps.map Prod.fst) = some tokens)
    (found : Placement.operations? natives (Placement.ofSteps "" 0 steps) = some operations) :
    (operations.map (Placement.lifted builder.functions)).map (fun operation =>
        operation.operation.mapTargets
          (countBelow (operationAddresses natives steps ++ [result.length]))) =
      positionedOperations tokens := by
  have byTokens := Placement.operations?_ofSteps natives "" 0 steps
  rw [found, isTokens, Option.map_some, Option.map_some, Option.some.injEq] at byTokens
  simp only [positionedOperations, ← byTokens, List.map_map]
  apply List.map_congr_left
  rintro ⟨placement, operation⟩ member
  obtain ⟨isPlacement, here, isHere, isOperation⟩ := Placement.mem_operations? found member
  obtain ⟨_, emittable, fewCases⟩ := finished.laid.of_mem isPlacement
  obtain ⟨labels, _⟩ := finished.countBelow_eq_position isTokens placement.function
  simp only [Function.comp_apply, Placement.lifted]
  rw [mapTargets_of_mem_operations? ⟨emittable, fewCases⟩ (symbolic _ isPlacement) isHere
    isOperation]
  simp only [labels, (finished.countBelow_eq_position isTokens _).2]

/-- What is left of lifted code without the skipped page tails, relative to the order of its
operations, is made of the operations of the tokens and the end. -/
theorem relativeOperations_append_endOfScript
    (symbolic : ∀ placement ∈ Placement.ofSteps "" 0 steps, placement.statement.SymbolicTargets)
    (isTokens : tokens? natives (steps.map Prod.fst) = some tokens)
    (found : Placement.operations? natives (Placement.ofSteps "" 0 steps) = some operations)
    {lifted : List LiftedOperation}
    (kept : (lifted.filter fun operation => !inSkippedTail 0
      ((Placement.ofSteps "" 0 steps).map Placement.bytes) operation.address) =
        operations.map (Placement.lifted builder.functions)) :
    relativeOperations (inSkippedTail 0 ((Placement.ofSteps "" 0 steps).map Placement.bytes))
        (lifted ++ [LiftedOperation.mk result.length .endOfScript]) =
      positionedOperations tokens ++ [.endOfScript] := by
  have stop := Placement.inSkippedTail_stop finished.laid
  rw [Nat.zero_add, ← finished.code_eq, ← finished.length_eq] at stop
  have endKept : ([LiftedOperation.mk result.length .endOfScript].filter fun operation =>
      !inSkippedTail 0 ((Placement.ofSteps "" 0 steps).map Placement.bytes) operation.address) =
      [LiftedOperation.mk result.length .endOfScript] := by
    simp [stop]
  have addresses : (operations.map (Placement.lifted builder.functions) ++
      [LiftedOperation.mk result.length .endOfScript]).map LiftedOperation.address =
      operationAddresses natives steps ++ [result.length] := by
    rw [← Placement.addresses_operations? found]
    simp [Placement.lifted, Function.comp_def]
  have count : ∀ target, (operations.map (Placement.lifted builder.functions) ++
      [LiftedOperation.mk result.length .endOfScript]).countP (·.address < target) =
      countBelow (operationAddresses natives steps ++ [result.length]) target := by
    intro target
    rw [countBelow, ← addresses, List.countP_map]
    rfl
  simp only [relativeOperations, List.filter_append, kept, endKept, count]
  rw [List.map_append, ← finished.map_mapTargets symbolic isTokens found]
  rfl

/-- Lifted code of a finished session, relative to the order of its operations, can be read off the
tokens of the session.  It can be lifted exactly if there are tokens. -/
theorem relativeOperations_lift
    (symbolic : ∀ placement ∈ Placement.ofSteps "" 0 steps, placement.statement.SymbolicTargets)
    (fits : result.length < 2 ^ 32)
    (natives : Array UInt64) :
    (lift result.pages.flatten natives).toOption.map (fun lifted => relativeOperations
        (inSkippedTail 0 ((Placement.ofSteps "" 0 steps).map Placement.bytes)) lifted.toList) =
      (tokens? natives (steps.map Prod.fst)).map fun tokens =>
        if (positionedOperations tokens).isEmpty then []
        else positionedOperations tokens ++ [.endOfScript] := by
  have byTokens := Placement.operations?_ofSteps natives "" 0 steps
  have filtered := Placement.filter_liftedOf?_linked finished.laid symbolic
    (fun placement member => finished.leadsTo fits member) natives
  rw [finished.flatten_pages, lift_codeOf finished.wellFormed finished.consecutive]
  unfold instructions
  cases isTokens : tokens? natives (steps.map Prod.fst) with
  | none =>
      rw [isTokens, Option.map_none, Option.map_eq_none_iff] at byTokens
      rw [byTokens, Option.map_none, Option.map_eq_none_iff] at filtered
      rw [filtered]
      rfl
  | some tokens =>
      rw [isTokens] at byTokens
      obtain ⟨operations, found, _⟩ := Option.map_eq_some_iff.mp byTokens
      have noRelative : (positionedOperations tokens).isEmpty = operations.isEmpty := by
        rw [← finished.map_mapTargets symbolic isTokens found, List.isEmpty_map, List.isEmpty_map]
      have noOperations := Placement.isEmpty_operations? builder.functions found
      rw [found] at filtered
      obtain ⟨lifted, isLifted, kept⟩ := Option.map_eq_some_iff.mp filtered
      rw [isLifted, Option.map_some, Option.map_some, Option.map_some, noOperations, noRelative,
        Option.some.injEq]
      cases operations.isEmpty with
      | true => rfl
      | false =>
          have length := finished.size_codeOf
          unfold instructions at length
          simp only [length, Bool.false_eq_true, if_false]
          exact finished.relativeOperations_append_endOfScript symbolic isTokens found kept

end Finished
end Builder
end ScriptBytecode
