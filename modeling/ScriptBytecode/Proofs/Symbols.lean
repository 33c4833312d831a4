import ScriptBytecode.Proofs.BuildSession

/-!
# Addresses of functions and labels

A label stands for the next instruction of its function, or for the end of the function if none
follows.  A function stands for its first instruction, or for the place where it began if it has
none.  Both are read off the answers of a session, whatever instructions were moved to a new page.
-/

namespace ScriptBytecode
namespace Builder

variable {builder next last : Builder} {call : BuildCall} {steps : List BuildStep} {answer : Nat}

/-- The address of a label that is placed before some steps: that of the next instruction, or the
length of the code where the function ends. -/
def addressAfter : List BuildStep → Nat
  | [] => 0
  | (.emit _, address) :: _ => address
  | (.endFunction, length) :: _ => length
  | _ :: rest => addressAfter rest

/-- The address of a function that begins before some steps in code of a given length. -/
def startAfter (length : Nat) : List BuildStep → Nat
  | [] => length
  | (.emit _, address) :: _ => address
  | (.endFunction, _) :: _ => length
  | _ :: rest => startAfter length rest

/-- The labels that are placed up to the end of the function, with their addresses. -/
def labelsAfter : List BuildStep → List (String × Nat)
  | [] => []
  | (.addLabel label, _) :: rest => (label, addressAfter rest) :: labelsAfter rest
  | (.endFunction, _) :: _ => []
  | _ :: rest => labelsAfter rest

/-- The functions that begin in a session, with their addresses. -/
def functionsIn : List BuildStep → List (String × Nat)
  | [] => []
  | (.beginFunction name, length) :: rest => (name, startAfter length rest) :: functionsIn rest
  | _ :: rest => functionsIn rest

/-- No finished function has the name of the one that is being built. -/
def NameFree (builder : Builder) : Prop :=
  ∀ function, builder.current = some function →
    builder.functions.find? (·.name == function.name) = none

theorem find?_eq_none_of_any
    {functions : Array FunctionSymbols} {name : String}
    (fresh : functions.any (·.name == name) = false) :
    functions.find? (·.name == name) = none := by
  rw [Array.find?_eq_none]
  intro symbols member
  rw [Array.any_eq_false'] at fresh
  exact fresh symbols member

theorem Step.nameFree
    (step : Step builder call answer next)
    (nameFree : builder.NameFree) :
    next.NameFree := by
  intro opened current
  cases step with
  | beginFunction name outside fresh =>
      cases current
      exact find?_eq_none_of_any fresh
  | addLabel label function current' notEmpty fresh =>
      cases current
      exact nameFree function current'
  | emit statement function current' fewCases =>
      cases current
      exact nameFree function current'
  | endFunction function current' => cases current

/-- Finished functions stay. -/
theorem Steps.find?_functions
    (run : Steps builder steps last)
    {isNamed : FunctionSymbols → Bool} {symbols : FunctionSymbols}
    (found : builder.functions.find? isNamed = some symbols) :
    last.functions.find? isNamed = some symbols := by
  induction run with
  | nil => exact found
  | cons step rest ih =>
      apply ih
      cases step with
      | endFunction function current =>
          rw [Array.find?_push, found]
          rfl
      | _ => exact found

theorem lookup_eq_none_of_hasLabel
    {function : OpenFunction} {label : String}
    (fresh : function.hasLabel label = false) :
    label ∉ function.pending ∧ function.labels.lookup label = none := by
  simpa [OpenFunction.hasLabel] using fresh

/-- Looking up a label among pending ones that are bound to an address. -/
theorem lookup_bound
    (pending : List String)
    (address : Nat)
    (labels : List (String × Nat))
    (label : String) :
    (pending.map (fun label => (label, address)) ++ labels).lookup label =
      if label ∈ pending then some address else labels.lookup label := by
  induction pending with
  | nil => simp
  | cons head rest ih =>
      rw [List.map_cons, List.cons_append, List.lookup_cons, ih]
      by_cases same : label = head
      · simp [same]
      · simp [same, beq_eq_false_iff_ne.mpr same]

/-- What becomes of the function that is being built: its start and the addresses of its labels,
those that are bound, those that wait for an instruction and those to come. -/
theorem Steps.symbols_of_current
    (run : Steps builder steps last)
    (finished : last.current = none)
    (nameFree : builder.NameFree)
    {function : OpenFunction}
    (current : builder.current = some function) :
    ∃ symbols, last.functions.find? (·.name == function.name) = some symbols ∧
      symbols.start = function.start.getD (startAfter builder.code.size steps) ∧
      ∀ label, symbols.labels.lookup label =
        if label ∈ function.pending then some (addressAfter steps)
        else (function.labels.lookup label).or ((labelsAfter steps).lookup label) := by
  induction run generalizing function with
  | nil builder =>
      rw [finished] at current
      cases current
  | @cons state next last call answer steps step rest ih =>
      have nextFree := step.nameFree nameFree
      cases step with
      | beginFunction name outside fresh =>
          rw [outside] at current
          cases current
      | addLabel label opened current' notEmpty fresh =>
          rw [current'] at current
          cases current
          obtain ⟨symbols, found, start, labels⟩ := ih finished nextFree rfl
          obtain ⟨notPending, notBound⟩ := lookup_eq_none_of_hasLabel fresh
          refine ⟨symbols, found, start, ?_⟩
          intro other
          rw [labels other, labelsAfter, List.lookup_cons]
          by_cases same : other = label
          · subst same
            simp [notPending, notBound]
          · simp [same, beq_eq_false_iff_ne.mpr same, addressAfter]
      | emit statement opened current' fewCases =>
          rw [current'] at current
          cases current
          obtain ⟨symbols, found, start, labels⟩ := ih finished nextFree rfl
          refine ⟨symbols, found, start, ?_⟩
          intro other
          rw [labels other]
          simp only [OpenFunction.bindAt, lookup_bound, labelsAfter, addressAfter]
          by_cases waiting : other ∈ function.pending <;> simp [waiting]
      | endFunction opened current' =>
          rw [current'] at current
          cases current
          refine ⟨function.close state.code.size, ?_, ?_, ?_⟩
          · apply rest.find?_functions
            rw [Array.find?_push, nameFree function current']
            simp [OpenFunction.close]
          · simp [OpenFunction.close, OpenFunction.bindAt, startAfter]
          · intro other
            simp only [OpenFunction.close, OpenFunction.bindAt, lookup_bound, labelsAfter,
              addressAfter]
            by_cases waiting : other ∈ function.pending <;> simp [waiting]

/-- The functions of a session, in order. -/
theorem Steps.functions_eq
    (run : Steps builder steps last)
    (finished : last.current = none) :
    last.functions.toList.map (fun symbols => (symbols.name, symbols.start)) =
      builder.functions.toList.map (fun symbols => (symbols.name, symbols.start)) ++
        (builder.current.toList.map fun function =>
          (function.name, function.start.getD (startAfter builder.code.size steps))) ++
        functionsIn steps := by
  induction run with
  | nil builder => simp [finished, functionsIn]
  | cons step rest ih =>
      rw [ih finished]
      cases step with
      | beginFunction name outside fresh => simp [outside, functionsIn]
      | addLabel label opened current notEmpty fresh => simp [current, startAfter, functionsIn]
      | emit statement opened current fewCases =>
          simp [afterPlacing, current, OpenFunction.bindAt, startAfter, functionsIn]
      | endFunction opened current =>
          simp [current, OpenFunction.close, OpenFunction.bindAt, startAfter, functionsIn]

/-! ## Addresses lie in the code -/

/-- The addresses of finished functions, of the open function and of their labels lie in the code
or at its end. -/
structure Bounded (builder : Builder) : Prop where
  starts : ∀ symbols ∈ builder.functions, symbols.start ≤ builder.code.size
  labels : ∀ symbols ∈ builder.functions, ∀ label ∈ symbols.labels,
    label.2 ≤ builder.code.size
  openStart : ∀ function, builder.current = some function →
    ∀ start, function.start = some start → start ≤ builder.code.size
  openLabels : ∀ function, builder.current = some function →
    ∀ label ∈ function.labels, label.2 ≤ builder.code.size

theorem bounded_empty : Bounded {} where
  starts := by simp
  labels := by simp
  openStart := by simp
  openLabels := by simp

/-- Code only grows. -/
theorem Step.size_le
    (step : Step builder call answer next) :
    builder.code.size ≤ next.code.size := by
  cases step with
  | emit statement function current fewCases =>
      simp only [afterPlacing, Array.size_append]
      omega
  | _ => exact Nat.le_refl _

theorem Step.bounded
    (step : Step builder call answer next)
    (bounded : builder.Bounded) :
    next.Bounded := by
  obtain ⟨starts, labels, openStart, openLabels⟩ := bounded
  have grown := step.size_le
  cases step with
  | beginFunction name outside fresh =>
      refine ⟨starts, labels, ?_, ?_⟩ <;> simp
  | addLabel label function current notEmpty fresh =>
      refine ⟨starts, labels, ?_, ?_⟩
      · rintro _ ⟨⟩
        exact openStart function current
      · rintro _ ⟨⟩
        exact openLabels function current
  | emit statement function current fewCases =>
      have placed : addressFor builder.code.size statement.fragment.bytes ≤
          (builder.afterPlacing function statement.fragment).code.size := by
        simp only [afterPlacing, addressFor, Array.size_append]
        omega
      refine ⟨?_, ?_, ?_, ?_⟩
      · intro symbols member
        exact Nat.le_trans (starts symbols member) grown
      · intro symbols member label isLabel
        exact Nat.le_trans (labels symbols member label isLabel) grown
      · rintro _ ⟨⟩ start bound
        simp only [OpenFunction.bindAt, Option.some.injEq] at bound
        cases first : function.start with
        | none =>
            rw [first] at bound
            exact bound ▸ placed
        | some known =>
            rw [first] at bound
            exact bound ▸ Nat.le_trans (openStart function current known first) grown
      · rintro _ ⟨⟩ label isLabel
        simp only [OpenFunction.bindAt, List.mem_append, List.mem_map] at isLabel
        rcases isLabel with ⟨name, _, rfl⟩ | isBound
        · exact placed
        · exact Nat.le_trans (openLabels function current label isBound) grown
  | endFunction function current =>
      refine ⟨?_, ?_, ?_, ?_⟩
      · intro symbols member
        rcases Array.mem_push.mp member with earlier | rfl
        · exact starts symbols earlier
        · cases first : function.start with
          | none => simp [OpenFunction.close, OpenFunction.bindAt, first]
          | some known =>
              simpa [OpenFunction.close, OpenFunction.bindAt, first] using
                openStart function current known first
      · intro symbols member label isLabel
        rcases Array.mem_push.mp member with earlier | rfl
        · exact labels symbols earlier label isLabel
        · simp only [OpenFunction.close, OpenFunction.bindAt, List.mem_append,
            List.mem_map] at isLabel
          rcases isLabel with ⟨name, _, rfl⟩ | isBound
          · exact Nat.le_refl _
          · exact openLabels function current label isBound
      · simp
      · simp

theorem Steps.bounded
    (run : Steps builder steps last)
    (bounded : builder.Bounded) :
    last.Bounded := by
  induction run with
  | nil => exact bounded
  | cons step rest ih => exact ih (step.bounded bounded)

/-- The address of a label lies in the code or at its end. -/
theorem Bounded.finishedLabel_le
    (bounded : builder.Bounded)
    {function label : String} {address : Nat}
    (found : finishedLabel? builder.functions function label = some address) :
    address ≤ builder.code.size := by
  obtain ⟨symbols, isFunction, isLabel⟩ := Option.bind_eq_some_iff.mp found
  obtain ⟨before, after, labels, _⟩ := List.lookup_eq_some_iff.mp isLabel
  exact bounded.labels symbols (Array.mem_of_find?_eq_some isFunction) (label, address)
    (by simp [labels])

end Builder
end ScriptBytecode
