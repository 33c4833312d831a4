import ScriptBytecode.Proofs.LockstepBuilds

/-!
# Builder calls that fail

A builder goes on after a call that fails.  Most calls leave the builder as it is when they fail.
The exception is the end of an instruction that is empty or too long: the instruction is given up,
but the references that were recorded for it are not.  The builder then runs in lockstep with one
in which the instruction was never begun, with these references left over.
-/

namespace ScriptBytecode
namespace Builder

/-! ## Rejected instructions -/

/-- A builder in which an instruction was begun and not ended yet, and the one before that. -/
structure BegunFrom (before builder : Builder) : Prop where
  code : builder.code = before.code
  functions : builder.functions = before.functions
  settled : builder.settled = before.settled ++ before.recent
  current : ∃ function, before.current = some function ∧ function.inInstruction = false ∧
    builder.current = some { function with inInstruction := true }

namespace BegunFrom

variable {before builder : Builder}

theorem of_beginInstruction
    (begun : beginInstruction before = .ok () builder) :
    BegunFrom before builder := by
  rcases before.beginInstruction_outcomes with
    ⟨_, -, refused⟩ | ⟨function, current, between, begins⟩
  · cases refused.symm.trans begun
  · cases begins.symm.trans begun
    exact ⟨rfl, rfl, rfl, function, current, between, rfl⟩

/-- What is written to an instruction and recorded for it does not change the rest. -/
theorem withRecorded
    (begun : BegunFrom before builder)
    (buffer : Bytes)
    (recent : Array Fixup) :
    BegunFrom before { builder with buffer, recent } :=
  ⟨begun.code, begun.functions, begun.settled, begun.current⟩

theorem reference
    (begun : BegunFrom before builder)
    (kind : ReferenceKind)
    (target : String) :
    ∃ after, Builder.reference kind target builder = .ok () after ∧ BegunFrom before after := by
  obtain ⟨function, -, -, current⟩ := begun.current
  refine ⟨_, ?_, begun.withRecorded (builder.buffer ++ Array.replicate kind.width 0)
    (builder.recent.push ⟨function.name, kind, target, builder.code.size + builder.buffer.size⟩)⟩
  simp only [Builder.reference, current]

theorem writeReferences
    (begun : BegunFrom before builder)
    (bytes : Bytes)
    (position : Nat)
    (references : List Reference) :
    (∃ after, Builder.writeReferences bytes position references builder = .ok () after ∧
        BegunFrom before after) ∨
      ∃ after, Builder.writeReferences bytes position references builder =
        .error .referenceOutOfBounds after := by
  induction references generalizing builder position with
  | nil =>
      unfold Builder.writeReferences
      split
      · exact .inl ⟨_, rfl, begun.withRecorded _ _⟩
      · exact .inr ⟨_, rfl⟩
  | cons first rest ih =>
      unfold Builder.writeReferences
      split
      · have written := begun.withRecorded (builder.buffer ++ bytes.extract position first.offset)
          builder.recent
        obtain ⟨after, recorded, stillBegun⟩ := written.reference first.kind first.target
        simp only [bind, EStateM.bind, write, recorded]
        exact ih stillBegun _
      · exact .inr ⟨_, rfl⟩

/-- An instruction that is given up at its end leaves only the references recorded for it. -/
theorem rejected
    (begun : BegunFrom before builder)
    {error : Error} {after : Builder}
    (failed : endInstruction builder = .error error after) :
    error.Rejects ∧ AlikeBetween after.recent after before := by
  obtain ⟨function, isCurrent, notBegun, current⟩ := begun.current
  have ended : some { function with inInstruction := false } = before.current := by
    rw [isCurrent, ← notBegun]
  have between : before.Between := by
    intro opened isOpened
    cases isCurrent.symm.trans isOpened
    exact notBegun
  have fixups : ∃ earlier later : Array Fixup,
      builder.settled ++ builder.recent = earlier ++ builder.recent ++ later ∧
        before.settled ++ before.recent = earlier ++ later :=
    ⟨builder.settled, #[], by simp, by simp [begun.settled]⟩
  rcases builder.endInstruction_outcomes with
    ⟨notInside, -⟩ | ⟨_, isOpen, -, ⟨_, rejects, givenUp⟩ | ⟨-, placed⟩⟩
  · cases notInside _ current
  · cases current.symm.trans isOpen
    cases givenUp.symm.trans failed
    exact ⟨rejects, begun.code, begun.functions, ended, between, fixups⟩
  · cases placed.symm.trans failed

end BegunFrom

/-! ## What failing calls leave -/

section Failures

variable {builder after : Builder} {error : Error}

theorem run_silent_eq_error
    {α : Type} {action : BuildM α} {answer : α → Option Nat}
    (failed : (action >>= fun value => pure (answer value)) builder = .error error after) :
    action builder = .error error after := by
  simp only [bind, EStateM.bind] at failed
  cases result : action builder with
  | ok value next =>
      rw [result] at failed
      cases failed
  | error found next =>
      rw [result] at failed
      cases failed
      rfl

theorem beginInstruction_failed
    (failed : beginInstruction builder = .error error after) :
    ¬error.Rejects ∧ after = builder := by
  rcases builder.beginInstruction_outcomes with refuses | ⟨_, -, -, begins⟩
  · exact refuses.failed failed
  · cases begins.symm.trans failed

/-- A whole instruction that fails is not begun, or it is given up at its end. -/
theorem instruction_failed
    {bytes : Bytes} {references : List Reference}
    (failed : instruction bytes references builder = .error error after)
    (returned : error ≠ .referenceOutOfBounds) :
    (¬error.Rejects ∧ after = builder) ∨
      error.Rejects ∧ AlikeBetween after.recent after builder := by
  simp only [instruction, bind, EStateM.bind] at failed
  cases isBegun : beginInstruction builder with
  | error found next =>
      rw [isBegun] at failed
      cases failed
      exact .inl (beginInstruction_failed isBegun)
  | ok _ next =>
      have begun := BegunFrom.of_beginInstruction isBegun
      rw [isBegun] at failed
      rcases begun.writeReferences bytes 0 (sortByKey Reference.offset references) with
        ⟨written, isWritten, begun⟩ | ⟨stopped, isStopped⟩
      · simp only [isWritten, get_eq_ok] at failed
        cases isEnded : endInstruction written with
        | ok _ last =>
            simp only [isEnded] at failed
            cases failed
        | error found last =>
            simp only [isEnded] at failed
            cases failed
            exact .inr (begun.rejected isEnded)
      · simp only [isStopped] at failed
        cases failed
        exact absurd rfl returned

/-- Every other call that fails leaves the builder as it is. -/
theorem run_failed
    {call : RawCall}
    (failed : call.run builder = .error error after)
    (returned : error ≠ .referenceOutOfBounds) :
    (¬error.Rejects ∧ after = builder) ∨
      error.Rejects ∧
        ((∃ bytes references, call = .instruction bytes references) ∧
            AlikeBetween after.recent after builder ∨
          call = .endInstruction ∧ ¬builder.Between) := by
  cases call with
  | write bytes => cases failed
  | beginInstruction => exact .inl (beginInstruction_failed (run_silent_eq_error failed))
  | instruction bytes references =>
      rcases instruction_failed (run_silent_eq_error failed) returned with
        unchanged | ⟨rejects, left⟩
      · exact .inl unchanged
      · exact .inr ⟨rejects, .inl ⟨⟨bytes, references, rfl⟩, left⟩⟩
  | beginFunction name =>
      replace failed := run_silent_eq_error failed
      rcases builder.beginFunction_outcomes name with refuses | ⟨-, -, began⟩
      · exact .inl (refuses.failed failed)
      · cases began.symm.trans failed
  | endFunction =>
      replace failed := run_silent_eq_error failed
      rcases builder.endFunction_outcomes with refuses | ⟨_, -, -, ended⟩
      · exact .inl (refuses.failed failed)
      · cases ended.symm.trans failed
  | addLabel label =>
      replace failed := run_silent_eq_error failed
      rcases builder.addLabel_outcomes label with refuses | ⟨_, -, -, -, -, added⟩
      · exact .inl (refuses.failed failed)
      · cases added.symm.trans failed
  | reference kind target =>
      replace failed := run_silent_eq_error failed
      rcases builder.reference_outcomes kind target with refuses | ⟨_, -, recorded⟩
      · exact .inl (refuses.failed failed)
      · cases recorded.symm.trans failed
  | endInstruction =>
      replace failed := run_silent_eq_error failed
      rcases builder.endInstruction_outcomes with
        ⟨-, refuses⟩ | ⟨function, current, isBegun, ⟨_, rejects, givenUp⟩ | ⟨-, placed⟩⟩
      · exact .inl (refuses.failed failed)
      · have inside : ¬builder.Between :=
          fun between => Bool.false_ne_true ((between function current).symm.trans isBegun)
        cases givenUp.symm.trans failed
        exact .inr ⟨rejects, .inr ⟨rfl, inside⟩⟩
      · cases placed.symm.trans failed

end Failures

/-! ## Histories -/

section Histories

variable {builder : Builder} {before : Builder} {recorded : Array Fixup} {call : RawCall}

theorem after_append (builder : Builder) (calls others : List RawCall) :
    builder.after (calls ++ others) = (builder.after calls).after others :=
  List.foldl_append

theorem answers_append (builder : Builder) (calls others : List RawCall) :
    builder.answers (calls ++ others) =
      builder.answers calls ++ (builder.after calls).answers others := by
  induction calls generalizing builder with
  | nil => rfl
  | cons call rest ih =>
      rw [List.cons_append, answers, ih, answers, List.cons_append]
      rfl

theorem alikeBetween_self (between : builder.Between) : AlikeBetween #[] builder builder :=
  ⟨rfl, rfl, rfl, between, builder.settled ++ builder.recent, #[], by simp, by simp⟩

theorem between_of_alike
    {left : Builder}
    (alike : AlikeBetween recorded left builder) :
    left.Between := by
  intro function current
  exact alike.between function (alike.current.symm.trans current)

theorem SameOutcome.between
    {α : Type} {failed : Builder → Builder → Prop} {action : BuildM α}
    (same : SameOutcome (AlikeBetween recorded) failed (action builder) (action builder))
    {answer : α → Option Nat} {address : Option Nat} {next : Builder}
    (succeeded : (action >>= fun value => pure (answer value)) builder = .ok address next) :
    next.Between := by
  simp only [Bind.bind, EStateM.bind] at succeeded
  generalize action builder = result at same succeeded
  cases same with
  | ok alike =>
      cases succeeded
      exact alike.between
  | error _ => cases succeeded

/-- Only the begin of an instruction begins one. -/
theorem between_next
    (between : builder.Between)
    (notBegin : call ≠ .beginInstruction)
    (returned : builder.answer call ≠ .error .referenceOutOfBounds) :
    (builder.next call).Between := by
  have alike := alikeBetween_self between
  unfold answer at returned
  unfold next
  cases result : call.run builder with
  | error error after =>
      rw [result] at returned
      rcases run_failed result fun isPanic => returned (congrArg _ isPanic) with
        ⟨-, unchanged⟩ | ⟨-, ⟨-, rejected⟩ | ⟨-, inside⟩⟩
      · exact unchanged ▸ between
      · exact between_of_alike rejected
      · exact absurd between inside
  | ok address after =>
      cases call with
      | beginFunction name => exact (alike.beginFunction name).between result
      | endFunction => exact alike.endFunction.between result
      | addLabel label => exact (alike.addLabel label).between result
      | beginInstruction => exact absurd rfl notBegin
      | endInstruction => exact alike.endInstruction.between result
      | instruction bytes references => exact (alike.instruction bytes references).between result
      | write bytes =>
          cases result
          exact between
      | reference kind target =>
          cases current : builder.current with
          | none =>
              simp only [RawCall.run, Bind.bind, EStateM.bind, reference, current] at result
              cases result
          | some function =>
              simp only [RawCall.run, Bind.bind, EStateM.bind, reference, current] at result
              cases result
              rintro _ ⟨⟩
              exact between function current

/-- An instruction stays begun until its end. -/
theorem BegunFrom.next
    (begun : BegunFrom before builder)
    (notEnd : call ≠ .endInstruction) :
    BegunFrom before (builder.next call) := by
  by_cases builds : call.Builds
  · cases builds with
    | write bytes => exact begun.withRecorded _ _
    | reference kind target =>
        obtain ⟨after, recorded, stillBegun⟩ := begun.reference kind target
        have isNext : builder.next (.reference kind target) = after := by
          simp only [Builder.next, RawCall.run, Bind.bind, EStateM.bind, recorded, pure,
            EStateM.pure]
        exact isNext ▸ stillBegun
    | endInstruction => exact absurd rfl notEnd
  · obtain ⟨function, -, -, current⟩ := begun.current
    have isBegun : { function with inInstruction := true }.inInstruction = true := rfl
    obtain ⟨error, -, refused⟩ := RawCall.exists_refused builds isBegun
    have unchanged : builder.next call = builder := by
      simp only [Builder.next, refused builder current]
    exact unchanged.symm ▸ begun

theorem BegunFrom.between_next_endInstruction
    (begun : BegunFrom before builder) :
    (builder.next .endInstruction).Between := by
  obtain ⟨function, -, -, current⟩ := begun.current
  have alike : AlikeInside #[] builder builder :=
    ⟨rfl, rfl, rfl, ⟨_, current, rfl⟩, rfl, rfl, builder.settled, #[], by simp, by simp⟩
  have same := alike.endInstruction
  simp only [Builder.next, RawCall.run, Bind.bind, EStateM.bind]
  generalize Builder.endInstruction builder = result at same
  cases same with
  | ok alike => exact alike.between
  | error alike => exact alike.between

theorem begunFrom_next_beginInstruction
    (between : builder.Between)
    (inside : ¬(builder.next .beginInstruction).Between) :
    BegunFrom builder (builder.next .beginInstruction) := by
  cases result : beginInstruction builder with
  | ok _ after =>
      have isNext : builder.next .beginInstruction = after := by
        simp only [next, RawCall.run, Bind.bind, EStateM.bind, result, pure, EStateM.pure]
      exact isNext ▸ BegunFrom.of_beginInstruction result
  | error error after =>
      have isNext : builder.next .beginInstruction = after := by
        simp only [next, RawCall.run, Bind.bind, EStateM.bind, result]
      rw [isNext, (beginInstruction_failed result).2] at inside
      exact absurd between inside

/-- While an instruction is being built, the history ends in its begin and calls other than its
end. -/
theorem exists_begun
    {history : List RawCall}
    (returned : ∀ entry ∈ Builder.answers {} history, entry.1 ≠ .error .referenceOutOfBounds)
    (inside : ¬(Builder.after {} history).Between) :
    ∃ earlier inner, history = earlier ++ .beginInstruction :: inner ∧ .endInstruction ∉ inner ∧
      BegunFrom (Builder.after {} earlier) (Builder.after {} history) := by
  induction history using List.reverseRecOn with
  | nil => exact absurd (by rintro _ ⟨⟩) inside
  | append_singleton history call ih =>
      rw [answers_append, List.forall_mem_append] at returned
      obtain ⟨returnedBefore, returnedHere⟩ := returned
      rw [after_append] at inside ⊢
      -- Between instructions the last call begins one; inside of one it is not the end of it.
      by_cases between : (Builder.after {} history).Between
      · have isBegin : call = .beginInstruction := by
          by_contra notBegin
          exact inside (between_next between notBegin (returnedHere _ List.mem_cons_self))
        subst isBegin
        exact ⟨history, [], rfl, List.not_mem_nil, begunFrom_next_beginInstruction between inside⟩
      · obtain ⟨earlier, inner, rfl, noEnd, begun⟩ := ih returnedBefore between
        have notEnd : call ≠ .endInstruction := by
          rintro rfl
          exact inside begun.between_next_endInstruction
        refine ⟨earlier, inner ++ [call], by simp, ?_, begun.next notEnd⟩
        rw [List.mem_append, List.mem_singleton]
        exact not_or.mpr ⟨noEnd, notEnd.symm⟩

end Histories

/-! ## Going on after a failure -/

/-- A history without the instruction that a call gives up: all of it if the call makes the whole
instruction, and else what comes before the begin of the instruction. -/
inductive WithoutInstruction : List RawCall → RawCall → List RawCall → Prop
  | whole (history : List RawCall) (bytes : Bytes) (references : List Reference) :
      WithoutInstruction history (.instruction bytes references) history
  | stepwise (earlier inner : List RawCall) (noEnd : .endInstruction ∉ inner) :
      WithoutInstruction (earlier ++ .beginInstruction :: inner) .endInstruction earlier

/-- A builder shows only by the references it has in addition that it is not another one. -/
structure ContinuesAs (recorded : Array Fixup) (left clean : Builder) : Prop where
  answers : ∀ rest, clean.RecordsInside rest → left.answers rest = clean.answers rest
  finish : ∀ rest, clean.RecordsInside rest →
    SameFinish recorded (left.after rest) (clean.after rest)

theorem AlikeBetween.continuesAs
    {recorded : Array Fixup} {left clean : Builder}
    (alike : AlikeBetween recorded left clean) :
    ContinuesAs recorded left clean where
  answers _ inside := (Alike.run (.inr alike) inside).1
  finish _ inside := (Alike.run (.inr alike) inside).2.sameFinish

/-- A call that fails leaves the builder as it is, unless it gives up the instruction that is being
built.  Later calls are answered as if this instruction had never been begun, and so is the build
finished, but for the references that were recorded for it: they are still resolved in the end. -/
theorem continuesAs_of_failed
    {history : List RawCall}
    (returned : ∀ entry ∈ Builder.answers {} history, entry.1 ≠ .error .referenceOutOfBounds)
    {call : RawCall} {error : Error} {next : Builder}
    (failed : call.run (Builder.after {} history) = .error error next)
    (returnedHere : error ≠ .referenceOutOfBounds) :
    (¬error.Rejects ∧ next = Builder.after {} history) ∨
      error.Rejects ∧ ∃ kept, WithoutInstruction history call kept ∧
        ContinuesAs next.recent next (Builder.after {} kept) := by
  rcases run_failed failed returnedHere with
    unchanged | ⟨rejects, ⟨⟨bytes, references, rfl⟩, alike⟩ | ⟨rfl, inside⟩⟩
  · exact .inl unchanged
  · exact .inr ⟨rejects, history, .whole history bytes references, alike.continuesAs⟩
  · obtain ⟨earlier, inner, rfl, noEnd, begun⟩ := exists_begun returned inside
    obtain ⟨-, alike⟩ := begun.rejected (run_silent_eq_error failed)
    exact .inr ⟨rejects, earlier, .stepwise earlier inner noEnd, alike.continuesAs⟩

/-- A whole instruction that is too long leaves its bytes and the references recorded for it. -/
theorem instruction_tooLong
    (fragment : Fragment)
    (placeholders : Statement.Placeholders fragment.bytes 0 fragment.references)
    (tooLong : instructionLimit ≤ fragment.bytes.size)
    (builder : Builder)
    {function : OpenFunction}
    (current : builder.current = some function)
    (between : function.inInstruction = false) :
    instruction fragment.bytes fragment.references builder =
      .error (.instructionTooLong fragment.bytes.size)
        { builder with
          buffer := fragment.bytes
          settled := builder.settled ++ builder.recent
          recent :=
            (fragment.references.map (fixupOf function.name builder.code.size)).toArray } := by
  obtain ⟨bytes, references⟩ := fragment
  have begun : beginInstruction builder =
      .ok ()
        { builder with
          buffer := #[]
          settled := builder.settled ++ builder.recent
          recent := #[]
          current := some { function with inInstruction := true } } := by
    simp [beginInstruction, current, between]
  have written := writeReferences_eq placeholders
    { builder with
      buffer := #[]
      settled := builder.settled ++ builder.recent
      recent := #[]
      current := some { function with inInstruction := true } } rfl rfl
  simp only [Array.extract_size, Array.empty_append] at written
  have notEmpty : bytes.isEmpty = false := by
    have positive : 0 < instructionLimit := by decide
    rw [Array.isEmpty_eq_false_iff_exists_mem]
    exact ⟨bytes[0], Array.getElem_mem (Nat.lt_of_lt_of_le positive tooLong)⟩
  have ended : some { function with inInstruction := false } = builder.current := by
    rw [current, ← between]
  simp only [instruction, sortByKey_eq_self placeholders.sorted, Bind.bind, EStateM.bind, begun,
    written, get_eq_ok, endInstruction, Bool.not_true, Bool.false_eq_true, if_false, notEmpty,
    tooLong, if_true]
  rw [← ended]

/-! An instruction that is too long, and refers to a label that is never placed. -/

section Oversized

variable {bytes : Bytes}

/-- A builder in which a function is begun. -/
def opened : Builder := { current := some { name := "f" } }

/-- An instruction that begins with a reference to a label. -/
def referring (bytes : Bytes) : RawCall :=
  .instruction bytes [⟨0, .relative, "nowhere"⟩]

/-- What is left of the builder when this instruction is rejected. -/
def afterReferring (bytes : Bytes) : Builder :=
  { opened with buffer := bytes, recent := #[⟨"f", .relative, "nowhere", 0⟩] }

theorem run_beginFunction_empty : (RawCall.beginFunction "f").run {} = .ok none opened := by
  simp [RawCall.run, beginFunction, Bind.bind, EStateM.bind, pure, EStateM.pure, opened]

theorem after_beginFunction : Builder.after {} [.beginFunction "f"] = opened := by
  simp only [after, List.foldl_cons, List.foldl_nil, next, run_beginFunction_empty]

theorem run_referring
    (tooLong : instructionLimit ≤ bytes.size)
    (zeros : bytes.extract 0 2 = #[0, 0]) :
    (referring bytes).run (Builder.after {} [.beginFunction "f"]) =
      .error (.instructionTooLong bytes.size) (afterReferring bytes) := by
  have holdsReference : 2 ≤ bytes.size := Nat.le_trans (by decide) tooLong
  have rejected := instruction_tooLong ⟨bytes, [⟨0, .relative, "nowhere"⟩]⟩
    ⟨Nat.le_refl 0, zeros, holdsReference⟩ tooLong opened rfl rfl
  rw [after_beginFunction]
  simp only [referring, RawCall.run, Bind.bind, EStateM.bind, rejected]
  rfl

theorem finish_after_referring
    (tooLong : instructionLimit ≤ bytes.size)
    (zeros : bytes.extract 0 2 = #[0, 0]) :
    (Builder.after {} [.beginFunction "f", referring bytes, .endFunction]).finish =
      .error (.undefinedLabel "f" "nowhere") := by
  have rejected : (Builder.after {} [.beginFunction "f"]).next (referring bytes) =
      afterReferring bytes := by
    rw [next, run_referring tooLong zeros]
  have left : Builder.after {} [.beginFunction "f", referring bytes, .endFunction] =
      (afterReferring bytes).next .endFunction := by
    rw [← rejected]
    rfl
  rw [left]
  simp [next, RawCall.run, endFunction, afterReferring, opened, Bind.bind, EStateM.bind, pure,
    EStateM.pure, finish, OpenFunction.close, OpenFunction.bindAt, Fixup.resolve, Fixup.operand,
    finishedLabel?, Except.bind, Except.pure]

/-- As many zeros as make an instruction too long. -/
def oversized : Bytes := Array.replicate instructionLimit 0

theorem size_oversized : oversized.size = instructionLimit := by
  rw [oversized, Array.size_replicate]

theorem extract_oversized : oversized.extract 0 2 = #[0, 0] := by
  rw [oversized, Array.extract_replicate]
  decide

/-- The build of an empty function fails because of an instruction that is not part of it. -/
theorem finish_after_oversized :
    (Builder.after {} [.beginFunction "f", referring oversized, .endFunction]).finish =
        .error (.undefinedLabel "f" "nowhere") ∧
      (Builder.after {} [.beginFunction "f", .endFunction]).finish =
        .ok ⟨Paged.ofArray #[], 0, #[("f", 0)]⟩ := by
  have clean : Builder.after {} [.beginFunction "f", .endFunction] = opened.next .endFunction := by
    rw [← after_beginFunction]
    rfl
  refine ⟨finish_after_referring (Nat.le_of_eq size_oversized.symm) extract_oversized, ?_⟩
  rw [clean]
  simp [next, RawCall.run, endFunction, opened, Bind.bind, EStateM.bind, pure, EStateM.pure,
    finish, OpenFunction.close, OpenFunction.bindAt, Except.bind, Except.pure]

/-- This instruction is rejected, and what is left of it is its reference. -/
theorem continuesAs_of_failed_oversized :
    (referring oversized).run (Builder.after {} [.beginFunction "f"]) =
        .error (.instructionTooLong oversized.size) (afterReferring oversized) ∧
      ∃ kept, WithoutInstruction [.beginFunction "f"] (referring oversized) kept ∧
        ContinuesAs #[⟨"f", .relative, "nowhere", 0⟩] (afterReferring oversized)
          (Builder.after {} kept) := by
  have returned : ∀ entry ∈ Builder.answers {} [.beginFunction "f"],
      entry.1 ≠ .error .referenceOutOfBounds := by
    simp [answers, answer, run_beginFunction_empty]
  have failed := run_referring (Nat.le_of_eq size_oversized.symm) extract_oversized
  refine ⟨failed, ?_⟩
  rcases continuesAs_of_failed returned failed (by rintro ⟨⟩) with
    ⟨notRejected, -⟩ | ⟨-, kept, without, continues⟩
  · exact absurd (.tooLong _) notRejected
  · exact ⟨kept, without, continues⟩

end Oversized

end Builder
end ScriptBytecode
