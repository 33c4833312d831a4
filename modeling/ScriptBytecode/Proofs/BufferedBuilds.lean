import ScriptBytecode.Proofs.EmittedStreams
import ScriptBytecode.Proofs.FinishedUnits

/-!
# Buffered and direct builds

Functions can be written to a code unit, which keeps their instructions until it is finished, or to
a builder, which places every instruction at once.  A unit that is finished without fusing makes
the builder calls it was given, in the same order, so both ways refuse the same calls and lead to
the same code or the same error.
-/

namespace ScriptBytecode

/-! ## Sessions -/

/-- A call that a code unit and a builder understand alike. -/
inductive CodeCall where
  | beginFunction (name : String)
  | label (name : String)
  | emit (emission : Emission)
  | endFunction
deriving DecidableEq, Repr

namespace CodeCall

/-- Makes a call on a code unit. -/
def buffered : CodeCall → UnitM Unit
  | .beginFunction name => CodeUnit.beginFunction name
  | .label name => CodeUnit.label name
  | .emit emission => do
    let _ ← CodeUnit.emit emission.statement
  | .endFunction => CodeUnit.endFunction

/-- Makes a call on a builder. -/
def direct : CodeCall → BuildM Unit
  | .beginFunction name => Builder.beginFunction name
  | .label name => Builder.addLabel name
  | .emit emission => do
    let _ ← Builder.emit emission.statement
  | .endFunction => Builder.endFunction

end CodeCall

/-- Makes calls one after the other, going on after those that fail.  Answers the errors of the
calls, with nothing for a call that succeeds, and the state in the end. -/
def runSession {σ : Type} (run : CodeCall → EStateM Error σ Unit) :
    List CodeCall → σ → List (Option Error) × σ
  | [], state => ([], state)
  | call :: rest, state =>
    match run call state with
    | .ok () next =>
      let (errors, last) := runSession run rest next
      (none :: errors, last)
    | .error error next =>
      let (errors, last) := runSession run rest next
      (some error :: errors, last)

/-- Results of finishing a code unit and a builder that are the same: linked code, or an error.
Only the errors for a function that was left open are worded differently. -/
inductive SameResult : Except Error UnitCode → Except Error LinkedCode → Prop
  | linked
      (code : UnitCode)
      (linked : LinkedCode)
      (pages : code.pages = linked.pages)
      (length : code.length = linked.length)
      (functions : code.functions = linked.functions) :
      SameResult (.ok code) (.ok linked)
  | failed (error : Error) : SameResult (.error error) (.error error)
  | leftOpen :
      SameResult (.error (.misplaced .codeFinishedInsideFunction))
        (.error (.misplaced .buildFinishedInsideFunction))

/-! ## Replaying a unit -/

namespace CodeUnit

/-- Places the functions of a unit, and what the open function holds so far. -/
def replay (codeUnit : CodeUnit) : BuildM Unit := do
  codeUnit.finished.toList.forM placeFunction
  match codeUnit.current with
  | none => pure ()
  | some function =>
    Builder.beginFunction function.name
    function.arena.entries.toList.forM placeEntry
    function.arena.pending.forM Builder.addLabel

variable {codeUnit : CodeUnit} {function : FunctionCode}

theorem replay_beginFunction
    (outside : codeUnit.current = none)
    (name : String) :
    replay { codeUnit with current := some { name } } =
      replay codeUnit >>= fun _ => Builder.beginFunction name := by
  have begun : (do
      Builder.beginFunction name
      (Arena.entries {}).toList.forM placeEntry
      (Arena.pending {}).forM Builder.addLabel : BuildM Unit) = Builder.beginFunction name :=
    bind_pure_unit
  simp only [replay, outside, bind_assoc, pure_bind, begun]

theorem replay_label
    (current : codeUnit.current = some function)
    (label : String) :
    replay { codeUnit with
        current := some { function with arena := function.arena.addLabel label } } =
      replay codeUnit >>= fun _ => Builder.addLabel label := by
  have added : (function.arena.pending ++ [label]).forM Builder.addLabel =
      function.arena.pending.forM Builder.addLabel >>= fun _ => Builder.addLabel label := by
    rw [List.forM_eq_forM, List.forM_append]
    simp
  have kept : (function.arena.addLabel label).entries = function.arena.entries := rfl
  simp only [replay, current, bind_assoc, kept]
  simp only [Arena.addLabel, added]

theorem replay_emit
    (current : codeUnit.current = some function)
    {emission : Emission}
    (fewCases : emission.statement.caseCount ≤ maxSwitchCases)
    {arena : Arena}
    (isEntries : arena.entries.toList = function.arena.entries.toList ++
      [Line.entry (function.arena.pending, emission.statement)])
    (noPending : arena.pending = []) :
    replay { codeUnit with current := some { function with arena } } =
      replay codeUnit >>= fun _ => (CodeCall.emit emission).direct := by
  have encoded := Statement.encode_eq_ok_iff.mpr ⟨fewCases, rfl⟩
  have whole : Builder.emit emission.statement =
      Builder.instruction emission.statement.fragment.bytes
        emission.statement.fragment.references := by
    funext builder
    simp only [Builder.emit, encoded]
  have placed : arena.entries.toList.forM placeEntry =
      function.arena.entries.toList.forM placeEntry >>= fun _ =>
        function.arena.pending.forM Builder.addLabel >>= fun _ =>
          (CodeCall.emit emission).direct := by
    rw [isEntries, List.forM_eq_forM, List.forM_append]
    simp [placeEntry, Line.entry, CodeCall.direct, whole]
  have nothing : arena.pending.forM Builder.addLabel = pure () := by
    rw [noPending]
    rfl
  have ends : ((CodeCall.emit emission).direct >>= fun _ => pure ()) =
      (CodeCall.emit emission).direct :=
    bind_pure_unit
  simp only [replay, current, bind_assoc, placed, nothing, ends]

theorem replay_endFunction
    (current : codeUnit.current = some function)
    (noTrailing : function.arena.trailing = []) :
    replay { codeUnit with
        finished := codeUnit.finished.push { function with arena := function.arena.close }
        current := none } =
      replay codeUnit >>= fun _ => Builder.endFunction := by
  have placed : placeFunction { function with arena := function.arena.close } = (do
      Builder.beginFunction function.name
      function.arena.entries.toList.forM placeEntry
      function.arena.pending.forM Builder.addLabel
      Builder.endFunction) := by
    have trailing : function.arena.close.trailing = function.arena.pending := by
      rw [Arena.close, noTrailing, List.nil_append]
    rw [placeFunction, trailing]
    rfl
  simp only [replay, current, bind_assoc, Array.toList_push]
  rw [List.forM_eq_forM, List.forM_append]
  simp [placed]

end CodeUnit

/-! ## Mirrored states -/

/-- The labels of an open arena are those of its lines and those that wait. -/
theorem Arena.Holds.hasLabel_iff
    {arena : Arena} {lines : List Line} {pending : List String}
    (holds : arena.Holds lines pending)
    (label : String) :
    arena.hasLabel label = true ↔ label ∈ lines.flatMap Prod.fst ++ pending := by
  refine ⟨fun used => ?_, fun member => ?_⟩
  · by_contra absent
    rw [holds.hasLabel_eq_false absent] at used
    exact Bool.false_ne_true used
  · by_contra unused
    exact holds.not_mem_of_hasLabel (Bool.not_eq_true _ ▸ unused) member

theorem Arena.hasLabel_addLabel (arena : Arena) (label other : String) :
    (arena.addLabel label).hasLabel other = (arena.hasLabel other || other == label) := by
  have sameEntries : (arena.addLabel label).entries = arena.entries := rfl
  rw [hasLabel, hasLabel, sameEntries, addLabel, List.contains_append, List.contains_cons,
    List.contains_nil, Bool.or_false]
  ac_rfl

theorem OpenFunction.hasLabel_addLabel (function : OpenFunction) (label other : String) :
    { function with pending := function.pending ++ [label] }.hasLabel other =
      (function.hasLabel other || other == label) := by
  rw [hasLabel, hasLabel, List.contains_append, List.contains_cons, List.contains_nil,
    Bool.or_false]
  ac_rfl

/-- A function of a code unit and the same function in a builder, both open. -/
structure SameFunction (function : FunctionCode) (opened : OpenFunction) : Prop where
  name : function.name = opened.name
  holds : ∃ lines, function.arena.Holds lines opened.pending
  labels : ∀ label, function.arena.hasLabel label = opened.hasLabel label
  between : opened.inInstruction = false

namespace SameFunction

variable {function : FunctionCode} {opened : OpenFunction}

theorem begun (name : String) : SameFunction { name } { name } where
  name := rfl
  holds := ⟨[], .empty⟩
  labels := by
    intro label
    rw [Arena.Holds.empty.hasLabel_eq_false (by simp)]
    rfl
  between := rfl

theorem addLabel (same : SameFunction function opened) (label : String) :
    SameFunction { function with arena := function.arena.addLabel label }
      { opened with pending := opened.pending ++ [label] } where
  name := same.name
  holds := by
    obtain ⟨lines, holds⟩ := same.holds
    exact ⟨lines, holds.addLabel label⟩
  labels := by
    intro other
    rw [Arena.hasLabel_addLabel, OpenFunction.hasLabel_addLabel, same.labels]
  between := same.between

/-- The labels that wait are bound on both sides when a statement is placed. -/
theorem emit
    (same : SameFunction function opened)
    (statement : Statement)
    (address : Nat) :
    SameFunction
      { function with
        arena := (function.arena.push
          ⟨statement.fragment.bytes, statement.fragment.references, []⟩).2 }
      (opened.bindAt address) where
  name := same.name
  holds := by
    obtain ⟨lines, holds⟩ := same.holds
    exact ⟨_, holds.push statement⟩
  labels := by
    intro label
    obtain ⟨lines, holds⟩ := same.holds
    rw [Builder.hasLabel_bindAt, ← same.labels, Bool.eq_iff_iff, holds.hasLabel_iff,
      (holds.push statement).hasLabel_iff]
    simp
  between := same.between

end SameFunction

/-- A builder that has made the calls a code unit keeps. -/
structure CodeUnit.Mirrors (codeUnit : CodeUnit) (builder : Builder) : Prop where
  replayed : codeUnit.replay {} = .ok () builder
  names : ∀ name, codeUnit.finished.any (·.name == name) = builder.functions.any (·.name == name)
  current : Option.Rel SameFunction codeUnit.current builder.current

/-- Results of one call that are alike: the call succeeds or it fails with an error of the same
kind, and the states still agree. -/
inductive SameAnswer :
    EStateM.Result Error CodeUnit Unit → EStateM.Result Error Builder Unit → Prop
  | accepted
      {codeUnit : CodeUnit}
      {builder : Builder}
      (mirrors : codeUnit.Mirrors builder) :
      SameAnswer (.ok () codeUnit) (.ok () builder)
  | refused
      {error other : Error}
      {codeUnit : CodeUnit}
      {builder : Builder}
      (sameKind : error.kind = other.kind)
      (mirrors : codeUnit.Mirrors builder) :
      SameAnswer (.error error codeUnit) (.error other builder)

namespace CodeUnit.Mirrors

variable {codeUnit : CodeUnit} {builder : Builder}

theorem empty : CodeUnit.Mirrors {} {} where
  replayed := rfl
  names := by simp
  current := .none

variable (mirrors : codeUnit.Mirrors builder)

include mirrors

/-- A call that both sides accept leads to mirrored states if the unit keeps the call. -/
theorem replayed_after
    {next : CodeUnit} {call : BuildM Unit} {after : Builder}
    (keeps : next.replay = codeUnit.replay >>= fun _ => call)
    (made : call builder = .ok () after) :
    next.replay {} = .ok () after := by
  have replayed := mirrors.replayed
  simp only [keeps, bind, EStateM.bind, replayed, made]

theorem current_cases :
    (codeUnit.current = none ∧ builder.current = none) ∨
      ∃ function opened, codeUnit.current = some function ∧ builder.current = some opened ∧
        SameFunction function opened := by
  have current := mirrors.current
  generalize codeUnit.current = here, builder.current = there at current
  cases current with
  | none => exact .inl ⟨rfl, rfl⟩
  | some same => exact .inr ⟨_, _, rfl, rfl, same⟩

theorem beginFunction (name : String) :
    SameAnswer (CodeUnit.beginFunction name codeUnit) (Builder.beginFunction name builder) := by
  rcases mirrors.current_cases with ⟨outside, outsideThere⟩ | ⟨function, opened, here, there, -⟩
  · cases taken : builder.functions.any (·.name == name) with
    | true =>
        have takenHere := (mirrors.names name).trans taken
        simp only [CodeUnit.beginFunction, Builder.beginFunction, outside, outsideThere, taken,
          takenHere, Option.isSome_none, Bool.false_eq_true, if_false, if_true]
        exact .refused rfl mirrors
    | false =>
        have freshHere := (mirrors.names name).trans taken
        have begun : Builder.beginFunction name builder =
            .ok () { builder with current := some { name } } := by
          simp [Builder.beginFunction, outsideThere, taken]
        have begunHere : CodeUnit.beginFunction name codeUnit =
            .ok () { codeUnit with current := some { name } } := by
          simp [CodeUnit.beginFunction, outside, freshHere]
        rw [begun, begunHere]
        exact .accepted ⟨mirrors.replayed_after (replay_beginFunction outside name) begun,
          mirrors.names, .some (.begun name)⟩
  · simp only [CodeUnit.beginFunction, Builder.beginFunction, here, there, Option.isSome_some,
      if_true]
    exact .refused rfl mirrors

theorem label (label : String) :
    SameAnswer (CodeUnit.label label codeUnit) (Builder.addLabel label builder) := by
  cases empty : label.isEmpty with
  | true =>
      simp only [CodeUnit.label, Builder.addLabel, empty, if_true]
      exact .refused rfl mirrors
  | false =>
      rcases mirrors.current_cases with ⟨outside, outsideThere⟩ |
        ⟨function, opened, here, there, same⟩
      · simp only [CodeUnit.label, Builder.addLabel, empty, outside, outsideThere,
          Bool.false_eq_true, if_false]
        exact .refused rfl mirrors
      · cases used : opened.hasLabel label with
        | true =>
            have usedHere := (same.labels label).trans used
            simp only [CodeUnit.label, Builder.addLabel, empty, here, there, same.between, used,
              usedHere, Bool.false_eq_true, if_false, if_true]
            exact .refused rfl mirrors
        | false =>
            have freshHere := (same.labels label).trans used
            have added : Builder.addLabel label builder =
                .ok () { builder with
                  current := some { opened with pending := opened.pending ++ [label] } } := by
              simp [Builder.addLabel, empty, there, same.between, used]
            have addedHere : CodeUnit.label label codeUnit =
                .ok () { codeUnit with
                  current := some { function with arena := function.arena.addLabel label } } := by
              simp [CodeUnit.label, empty, here, freshHere]
            rw [added, addedHere]
            exact .accepted ⟨mirrors.replayed_after (replay_label here label) added,
              mirrors.names, .some (same.addLabel label)⟩

/-- Inside of functions, both sides take a statement that has an encoding. -/
theorem emit_inside
    {function : FunctionCode} {opened : OpenFunction}
    (here : codeUnit.current = some function)
    (there : builder.current = some opened)
    (same : SameFunction function opened)
    (emission : Emission)
    (fewCases : emission.statement.caseCount ≤ maxSwitchCases) :
    SameAnswer ((CodeCall.emit emission).buffered codeUnit)
      ((CodeCall.emit emission).direct builder) := by
  obtain ⟨lines, holds⟩ := same.holds
  have pushed := holds.push emission.statement
  have encoded := Statement.encode_eq_ok_iff.mpr ⟨fewCases, rfl⟩
  have emitted := Builder.emit_eq emission.nameLength_statement_lt fewCases builder there
    same.between
  have placed : (CodeCall.emit emission).direct builder =
      .ok () (builder.afterPlacing opened emission.statement.fragment) := by
    simp only [CodeCall.direct, bind, EStateM.bind, emitted, pure, EStateM.pure]
  have appended : (CodeCall.emit emission).buffered codeUnit = .ok ()
      { codeUnit with
        current := some { function with
          arena := (function.arena.push ⟨emission.statement.fragment.bytes,
            emission.statement.fragment.references, []⟩).2 } } := by
    obtain ⟨finished, current, natives, nativeIndices⟩ := codeUnit
    subst here
    simp only [CodeCall.buffered, CodeUnit.emit, encoded, append, bind, EStateM.bind, pure,
      EStateM.pure]
  have isEntries := pushed.hasLines.entries_eq
  rw [List.map_append, ← holds.hasLines.entries_eq, ← holds.isPending] at isEntries
  rw [appended, placed]
  exact .accepted ⟨mirrors.replayed_after (replay_emit here fewCases isEntries pushed.isPending)
    placed, mirrors.names, .some (same.emit emission.statement _)⟩

theorem emit (emission : Emission) :
    SameAnswer ((CodeCall.emit emission).buffered codeUnit)
      ((CodeCall.emit emission).direct builder) := by
  by_cases fewCases : emission.statement.caseCount ≤ maxSwitchCases
  · have encoded := Statement.encode_eq_ok_iff.mpr ⟨fewCases, rfl⟩
    rcases mirrors.current_cases with ⟨outside, outsideThere⟩ |
      ⟨function, opened, here, there, same⟩
    · obtain ⟨finished, current, natives, nativeIndices⟩ := codeUnit
      subst outside
      simp only [CodeCall.buffered, CodeCall.direct, CodeUnit.emit, Builder.emit, encoded, append,
        Builder.instruction, Builder.beginInstruction, outsideThere, bind, EStateM.bind]
      exact .refused rfl mirrors
    · exact mirrors.emit_inside here there same emission fewCases
  · have tooMany : maxSwitchCases < emission.statement.caseCount := by omega
    simp only [CodeCall.buffered, CodeCall.direct, CodeUnit.emit, Builder.emit, Statement.encode,
      tooMany, if_true, bind, EStateM.bind]
    exact .refused rfl mirrors

theorem endFunction :
    SameAnswer (CodeUnit.endFunction codeUnit) (Builder.endFunction builder) := by
  rcases mirrors.current_cases with ⟨outside, outsideThere⟩ | ⟨function, opened, here, there, same⟩
  · obtain ⟨finished, current, natives, nativeIndices⟩ := codeUnit
    subst outside
    simp only [CodeUnit.endFunction, Builder.endFunction, outsideThere]
    exact .refused rfl mirrors
  · obtain ⟨lines, holds⟩ := same.holds
    have ended : Builder.endFunction builder =
        .ok () { builder with
          functions := builder.functions.push (opened.close builder.code.size)
          current := none } := by
      simp [Builder.endFunction, there, same.between]
    have endedHere : CodeUnit.endFunction codeUnit =
        .ok () { codeUnit with
          finished := codeUnit.finished.push { function with arena := function.arena.close }
          current := none } := by
      obtain ⟨finished, current, natives, nativeIndices⟩ := codeUnit
      subst here
      rfl
    have names : ∀ name,
        (codeUnit.finished.push { function with arena := function.arena.close }).any
            (·.name == name) =
          (builder.functions.push (opened.close builder.code.size)).any (·.name == name) := by
      intro name
      have closed : (opened.close builder.code.size).name = opened.name := rfl
      simp [mirrors.names name, closed, same.name]
    rw [ended, endedHere]
    exact .accepted ⟨mirrors.replayed_after (replay_endFunction here holds.noTrailing) ended,
      names, .none⟩

/-- One call is answered alike and keeps the states mirrored. -/
theorem sameAnswer (call : CodeCall) :
    SameAnswer (call.buffered codeUnit) (call.direct builder) := by
  cases call with
  | beginFunction name => exact mirrors.beginFunction name
  | label name => exact mirrors.label name
  | emit emission => exact mirrors.emit emission
  | endFunction => exact mirrors.endFunction

/-- So is every session. -/
theorem runSession (calls : List CodeCall) :
    (runSession CodeCall.buffered calls codeUnit).1.map (Option.map Error.kind) =
        (runSession CodeCall.direct calls builder).1.map (Option.map Error.kind) ∧
      (runSession CodeCall.buffered calls codeUnit).2.Mirrors
        (runSession CodeCall.direct calls builder).2 := by
  induction calls generalizing codeUnit builder with
  | nil => exact ⟨rfl, mirrors⟩
  | cons call rest ih =>
      have answer := mirrors.sameAnswer call
      simp only [ScriptBytecode.runSession]
      generalize call.buffered codeUnit = here, call.direct builder = there at answer
      cases answer with
      | accepted mirrors =>
          obtain ⟨errors, last⟩ := ih mirrors
          exact ⟨congrArg (none :: ·) errors, last⟩
      | refused sameKind mirrors =>
          obtain ⟨errors, last⟩ := ih mirrors
          refine ⟨?_, last⟩
          rw [List.map_cons, List.map_cons, errors, Option.map_some, Option.map_some, sameKind]

/-- Finishing without fusing replays the calls, so mirrored states are finished alike. -/
theorem sameResult :
    SameResult (codeUnit.finish false) builder.finish := by
  rcases mirrors.current_cases with ⟨outside, -⟩ | ⟨function, opened, here, there, -⟩
  -- Outside of functions the calls that lead to the builder are those that finishing makes.
  · have placed : codeUnit.finished.toList.forM placeFunction {} = .ok () builder := by
      have replayed := mirrors.replayed
      have isPlacing : codeUnit.replay = codeUnit.finished.toList.forM placeFunction := by
        simp only [replay, outside]
        exact bind_pure_unit
      rwa [isPlacing] at replayed
    have ran : EStateM.run (codeUnit.finished.toList.forM placeFunction) {} = .ok () builder :=
      placed
    simp only [CodeUnit.finish, outside, Option.isSome_none, Bool.false_eq_true, if_false, ran]
    cases builder.finish with
    | ok linked => exact .linked _ linked rfl rfl rfl
    | error error => exact .failed error
  · simp only [CodeUnit.finish, Builder.finish, here, there, Option.isSome_some, if_true]
    exact .leftOpen

end CodeUnit.Mirrors

/-- Whatever calls are made, a code unit and a builder refuse the same ones with errors of the same
kinds, and finishing them leads to the same code or the same error. -/
theorem sameResult_runSession (calls : List CodeCall) :
    (runSession CodeCall.buffered calls {}).1.map (Option.map Error.kind) =
        (runSession CodeCall.direct calls {}).1.map (Option.map Error.kind) ∧
      SameResult ((runSession CodeCall.buffered calls {}).2.finish false)
        (runSession CodeCall.direct calls {}).2.finish := by
  obtain ⟨errors, mirrors⟩ := CodeUnit.Mirrors.empty.runSession calls
  exact ⟨errors, mirrors.sameResult⟩

end ScriptBytecode
