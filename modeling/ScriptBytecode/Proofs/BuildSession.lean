import ScriptBytecode.Proofs.BuildOutcomes
import ScriptBytecode.Proofs.Placement

/-!
# Build sessions

A session is a list of calls on a builder, made one after the other.  A call that fails leaves the
builder as it was, so a session is described by the calls that succeeded and their answers.  The
addresses that functions and labels get in the end can be read off these answers.
-/

namespace ScriptBytecode

/-- A call of a build session. -/
inductive BuildCall where
  | beginFunction (name : String)
  | addLabel (label : String)
  | emit (statement : Statement)
  | endFunction
deriving DecidableEq, Repr

/-- A call that succeeded, with its answer. -/
abbrev BuildStep := BuildCall × Nat

namespace BuildCall

/-- Makes a call.  The answer is the address of an emitted instruction, and for the other calls the
length of the code. -/
def run : BuildCall → BuildM Nat
  | .beginFunction name => do
    Builder.beginFunction name
    return (← get).code.size
  | .addLabel label => do
    Builder.addLabel label
    return (← get).code.size
  | .emit statement => Builder.emit statement
  | .endFunction => do
    Builder.endFunction
    return (← get).code.size

/-- Calls that only emit what has an encoding of its own. -/
def Emittable : BuildCall → Prop
  | .emit statement => statement.Emittable
  | _ => True

instance (call : BuildCall) : Decidable call.Emittable :=
  match call with
  | .emit statement => inferInstanceAs (Decidable statement.Emittable)
  | .beginFunction _ | .addLabel _ | .endFunction => .isTrue trivial

end BuildCall

namespace Builder

variable {builder next : Builder} {call : BuildCall} {answer : Nat}

/-- Makes calls one after the other, going on after those that fail.  Answers the calls that
succeeded. -/
def runCalls : List BuildCall → Builder → List BuildStep × Builder
  | [], builder => ([], builder)
  | call :: rest, builder =>
    match call.run builder with
    | .ok answer next =>
      let (steps, last) := runCalls rest next
      ((call, answer) :: steps, last)
    | .error _ next => runCalls rest next

/-- What a call does when it succeeds. -/
inductive Step (builder : Builder) : BuildCall → Nat → Builder → Prop
  | beginFunction
      (name : String)
      (outside : builder.current = none)
      (fresh : builder.functions.any (·.name == name) = false) :
      Step builder (.beginFunction name) builder.code.size
        { builder with current := some { name } }
  | addLabel
      (label : String)
      (function : OpenFunction)
      (current : builder.current = some function)
      (notEmpty : label.isEmpty = false)
      (fresh : function.hasLabel label = false) :
      Step builder (.addLabel label) builder.code.size
        { builder with current := some { function with pending := function.pending ++ [label] } }
  | emit
      (statement : Statement)
      (function : OpenFunction)
      (current : builder.current = some function)
      (fewCases : statement.caseCount ≤ maxSwitchCases) :
      Step builder (.emit statement) (addressFor builder.code.size statement.fragment.bytes)
        (builder.afterPlacing function statement.fragment)
  | endFunction
      (function : OpenFunction)
      (current : builder.current = some function) :
      Step builder .endFunction builder.code.size
        { builder with
          functions := builder.functions.push (function.close builder.code.size)
          current := none }

/-- A run of calls that succeed. -/
inductive Steps : Builder → List BuildStep → Builder → Prop
  | nil (builder : Builder) : Steps builder [] builder
  | cons
      {builder next last : Builder}
      {call : BuildCall}
      {answer : Nat}
      {steps : List BuildStep}
      (step : Step builder call answer next)
      (rest : Steps next steps last) :
      Steps builder ((call, answer) :: steps) last

/-- Statements with an encoding are placed as whole instructions. -/
theorem emit_eq
    {statement : Statement}
    (nameFits : statement.nameLength < 256)
    (fewCases : statement.caseCount ≤ maxSwitchCases)
    (builder : Builder)
    {function : OpenFunction}
    (current : builder.current = some function)
    (between : function.inInstruction = false) :
    emit statement builder =
      .ok (addressFor builder.code.size statement.fragment.bytes)
        (builder.afterPlacing function statement.fragment) := by
  have encoded := Statement.encode_eq_ok_iff.mpr ⟨fewCases, rfl⟩
  have short := Statement.size_fragment_lt nameFits fewCases
  simp only [emit, encoded]
  exact instruction_eq statement.fragment_placeholders statement.size_fragment_pos short builder
    current between

/-- A step is what the call of it does. -/
theorem Step.run
    (step : Step builder call answer next)
    (emittable : call.Emittable)
    (between : builder.Between) :
    call.run builder = .ok answer next := by
  cases step with
  | beginFunction name outside fresh =>
      simp [BuildCall.run, bind, EStateM.bind, Builder.beginFunction, outside, fresh, get_eq_ok,
        pure, EStateM.pure]
  | addLabel label function current notEmpty fresh =>
      simp [BuildCall.run, bind, EStateM.bind, Builder.addLabel, notEmpty, current,
        between function current, fresh, get_eq_ok, pure, EStateM.pure]
  | emit statement function current fewCases =>
      exact emit_eq emittable.nameFits fewCases builder current (between function current)
  | endFunction function current =>
      simp [BuildCall.run, bind, EStateM.bind, Builder.endFunction, current,
        between function current, get_eq_ok, pure, EStateM.pure]

/-- A call makes a step or fails and leaves the builder as it is. -/
theorem step_or_error (call : BuildCall) (builder : Builder) :
    (∃ answer next, Step builder call answer next) ∨
      ∃ error, call.run builder = .error error builder := by
  cases call with
  | beginFunction name =>
      rcases builder.beginFunction_outcomes name with ⟨error, -, refused⟩ | ⟨outside, fresh, -⟩
      · right
        simp only [BuildCall.run, bind, EStateM.bind, refused]
        exact ⟨error, rfl⟩
      · exact .inl ⟨_, _, .beginFunction name outside fresh⟩
  | addLabel label =>
      rcases builder.addLabel_outcomes label with
        ⟨error, -, refused⟩ | ⟨function, current, -, notEmpty, fresh, -⟩
      · right
        simp only [BuildCall.run, bind, EStateM.bind, refused]
        exact ⟨error, rfl⟩
      · exact .inl ⟨_, _, .addLabel label function current notEmpty fresh⟩
  | emit statement =>
      by_cases fewCases : statement.caseCount ≤ maxSwitchCases
      · cases current : builder.current with
        | none =>
            right
            have encoded := Statement.encode_eq_ok_iff.mpr ⟨fewCases, rfl⟩
            simp [BuildCall.run, Builder.emit, encoded, instruction, bind, EStateM.bind,
              beginInstruction, current]
        | some function => exact .inl ⟨_, _, .emit statement function current fewCases⟩
      · right
        have tooMany : maxSwitchCases < statement.caseCount := by omega
        simp [BuildCall.run, Builder.emit, Statement.encode, tooMany]
  | endFunction =>
      rcases builder.endFunction_outcomes with ⟨error, -, refused⟩ | ⟨function, current, -, -⟩
      · right
        simp only [BuildCall.run, bind, EStateM.bind, refused]
        exact ⟨error, rfl⟩
      · exact .inl ⟨_, _, .endFunction function current⟩

/-- No instruction stays begun after a step. -/
theorem Step.between
    (step : Step builder call answer next)
    (between : builder.Between) :
    next.Between := by
  intro opened current
  cases step with
  | beginFunction name outside fresh =>
      cases current
      rfl
  | addLabel label function current' notEmpty fresh =>
      cases current
      exact between function current'
  | emit statement function current' fewCases =>
      cases current
      exact between function current'
  | endFunction function current' => cases current

/-- The calls of a session that succeeded make a run. -/
theorem steps_runCalls
    (calls : List BuildCall)
    (emittable : ∀ call ∈ calls, call.Emittable)
    (builder : Builder)
    (between : builder.Between) :
    Steps builder (runCalls calls builder).1 (runCalls calls builder).2 := by
  induction calls generalizing builder with
  | nil => exact .nil builder
  | cons call rest ih =>
      have callEmittable := emittable call List.mem_cons_self
      have restEmittable : ∀ other ∈ rest, other.Emittable :=
        fun other member => emittable other (List.mem_cons_of_mem _ member)
      rcases step_or_error call builder with ⟨answer, next, step⟩ | ⟨error, failed⟩
      · have later := ih restEmittable next (step.between between)
        simp only [runCalls, step.run callEmittable between]
        exact .cons step later
      · simp only [runCalls, failed]
        exact ih restEmittable builder between

theorem runCalls_calls_subset
    (calls : List BuildCall)
    (builder : Builder) :
    ∀ step ∈ (runCalls calls builder).1, step.1 ∈ calls := by
  induction calls generalizing builder with
  | nil => simp [runCalls]
  | cons call rest ih =>
      unfold runCalls
      split
      · rename_i answer next _
        intro step member
        rcases List.mem_cons.mp member with rfl | inRest
        · exact List.mem_cons_self
        · exact List.mem_cons_of_mem _ (ih next step inRest)
      · rename_i next _
        intro step member
        exact List.mem_cons_of_mem _ (ih next step member)

/-! ## Sessions without failures -/

/-- What the calls of a session depend on: the size of the code, the open function and the finished
functions. -/
structure Outline where
  size : Nat := 0
  current : Option OpenFunction := none
  functions : Array FunctionSymbols := #[]
deriving DecidableEq

def outline (builder : Builder) : Outline :=
  ⟨builder.code.size, builder.current, builder.functions⟩

/-- What a call that succeeds answers and makes of an outline. -/
def Outline.next? (outline : Outline) : BuildCall → Option (Nat × Outline)
  | .beginFunction name =>
    if outline.current = none ∧ outline.functions.any (·.name == name) = false then
      some (outline.size, { outline with current := some { name } })
    else none
  | .addLabel label => do
    let function ← outline.current
    if label.isEmpty = false ∧ function.hasLabel label = false then
      some (outline.size,
        { outline with current := some { function with pending := function.pending ++ [label] } })
    else none
  | .emit statement => do
    let function ← outline.current
    let address := addressFor outline.size statement.fragment.bytes
    if statement.caseCount ≤ maxSwitchCases then
      some (address,
        { outline with
          size := address + statement.fragment.bytes.size
          current := some (function.bindAt address) })
    else none
  | .endFunction => do
    let function ← outline.current
    some (outline.size,
      { outline with
        current := none
        functions := outline.functions.push (function.close outline.size) })

theorem exists_step_of_next?
    {builder : Builder} {call : BuildCall} {answer : Nat} {after : Outline}
    (isNext : builder.outline.next? call = some (answer, after)) :
    ∃ next, Step builder call answer next ∧ next.outline = after := by
  cases call with
  | beginFunction name =>
      simp only [Outline.next?, Option.ite_none_right_eq_some, Option.some.injEq,
        Prod.mk.injEq] at isNext
      obtain ⟨⟨outside, fresh⟩, rfl, rfl⟩ := isNext
      exact ⟨_, .beginFunction name outside fresh, rfl⟩
  | addLabel label =>
      simp only [Outline.next?, Option.bind_eq_bind, Option.bind_eq_some_iff,
        Option.ite_none_right_eq_some, Option.some.injEq, Prod.mk.injEq] at isNext
      obtain ⟨function, current, ⟨notEmpty, fresh⟩, rfl, rfl⟩ := isNext
      exact ⟨_, .addLabel label function current notEmpty fresh, rfl⟩
  | emit statement =>
      simp only [Outline.next?, Option.bind_eq_bind, Option.bind_eq_some_iff,
        Option.ite_none_right_eq_some, Option.some.injEq, Prod.mk.injEq] at isNext
      obtain ⟨function, current, fewCases, rfl, rfl⟩ := isNext
      refine ⟨_, .emit statement function current fewCases, ?_⟩
      simp [outline, afterPlacing, addressFor, Nat.add_assoc]
  | endFunction =>
      simp only [Outline.next?, Option.bind_eq_bind, Option.bind_eq_some_iff, Option.some.injEq,
        Prod.mk.injEq] at isNext
      obtain ⟨function, current, rfl, rfl⟩ := isNext
      exact ⟨_, .endFunction function current, rfl⟩

/-- The steps of calls that all succeed, and the outline after them. -/
def Outline.run? : List BuildCall → Outline → Option (List BuildStep × Outline)
  | [], outline => some ([], outline)
  | call :: rest, outline => do
    let (answer, next) ← outline.next? call
    let (steps, last) ← run? rest next
    some ((call, answer) :: steps, last)

theorem runCalls_of_run?
    {calls : List BuildCall}
    (emittable : ∀ call ∈ calls, call.Emittable)
    {builder : Builder}
    (between : builder.Between)
    {steps : List BuildStep} {after : Outline}
    (ran : Outline.run? calls builder.outline = some (steps, after)) :
    (runCalls calls builder).1 = steps ∧ (runCalls calls builder).2.outline = after := by
  induction calls generalizing builder steps with
  | nil =>
      cases ran
      exact ⟨rfl, rfl⟩
  | cons call rest ih =>
      obtain ⟨emittableHere, emittableLater⟩ := List.forall_mem_cons.mp emittable
      simp only [Outline.run?, Option.bind_eq_bind, Option.bind_eq_some_iff, Option.some.injEq,
        Prod.mk.injEq] at ran
      obtain ⟨⟨answer, middle⟩, isNext, ⟨others, last⟩, later, rfl, rfl⟩ := ran
      obtain ⟨next, step, rfl⟩ := exists_step_of_next? isNext
      obtain ⟨areSteps, isOutline⟩ := ih emittableLater (step.between between) later
      simp only [runCalls, step.run emittableHere between]
      exact ⟨congrArg _ areSteps, isOutline⟩

/-- An instruction of 260 bytes. -/
def longEnter : Statement :=
  .plain .enter (.enter 0 0 (List.replicate 255 0))

/-- A function that does not fit in a page: a long instruction, with the label in front of it, is
moved to the next page. -/
def crowdedSession : List BuildCall :=
  [.beginFunction "main", .addLabel "top"] ++ List.replicate 63 (.emit longEnter) ++
    [.addLabel "moved", .emit longEnter, .emit (.jump .j "moved"), .emit (.jump .jz "top"),
      .emit (.switch [(1, "top"), (2, "moved")]), .emit (.call "main"), .endFunction]

theorem emittable_crowdedSession : ∀ call ∈ crowdedSession, call.Emittable := by
  decide +kernel

end Builder
end ScriptBytecode
