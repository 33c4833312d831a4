import ScriptBytecode.Proofs.FailedCalls

/-!
# Stray references

A build record keeps, beside a builder, the instructions that were written and the references that
belong to none of them: those recorded outside of instructions, and those of instructions that were
rejected.  Every other reference lies inside of a written instruction, at whatever offset of a page
the instruction was placed.
-/

namespace ScriptBytecode

open Builder

variable {references : List Reference}

/-! ## Calls with references in range -/

/-- References inside of the bytes of an instruction and apart from each other, in any order. -/
structure ReferencesFit (bytes : Bytes) (references : List Reference) : Prop where
  inside : ∀ reference ∈ references, reference.offset + reference.kind.width ≤ bytes.size
  apart : references.Pairwise fun left right =>
    left.offset + left.kind.width ≤ right.offset ∨ right.offset + right.kind.width ≤ left.offset

/-- A call whose references, if it makes a whole instruction, lie in it and apart. -/
def RawCall.InRange : RawCall → Prop
  | .instruction bytes references => ReferencesFit bytes references
  | _ => True

theorem ReferenceKind.width_pos (kind : ReferenceKind) : 0 < kind.width := by
  cases kind <;> decide

/-- References one after the other from a position on, up to the end of bytes of a given size. -/
def Spaced (size : Nat) : (position : Nat) → List Reference → Prop
  | position, [] => position ≤ size
  | position, next :: rest =>
    position ≤ next.offset ∧ Spaced size (next.offset + next.kind.width) rest

theorem Spaced.position_le
    {size position : Nat}
    (spaced : Spaced size position references) :
    position ≤ size := by
  induction references generalizing position with
  | nil => exact spaced
  | cons next rest ih =>
      have bound := ih spaced.2
      have reached := spaced.1
      omega

/-- References that fit stand one after the other when they are sorted. -/
theorem ReferencesFit.spaced
    {bytes : Bytes}
    (fit : ReferencesFit bytes references) :
    Spaced bytes.size 0 (sortByKey Reference.offset references) := by
  have sorted := sortByKey_sorted Reference.offset references
  have permuted := sortByKey_perm Reference.offset references
  have inside : ∀ reference ∈ sortByKey Reference.offset references,
      reference.offset + reference.kind.width ≤ bytes.size :=
    fun reference member => fit.inside reference (permuted.mem_iff.mp member)
  have apart := (permuted.pairwise_iff fun {_ _} => Or.symm).mpr fit.apart
  generalize sortByKey Reference.offset references = ordered at sorted inside apart
  have general : ∀ position ≤ bytes.size, (∀ reference ∈ ordered, position ≤ reference.offset) →
      Spaced bytes.size position ordered := by
    induction ordered with
    | nil => exact fun position inBytes _ => inBytes
    | cons next rest ih =>
        obtain ⟨nextLeast, restSorted⟩ := List.pairwise_cons.mp sorted
        obtain ⟨nextApart, restApart⟩ := List.pairwise_cons.mp apart
        obtain ⟨nextInside, restInside⟩ := List.forall_mem_cons.mp inside
        intro position _ reached
        refine ⟨reached next List.mem_cons_self, ?_⟩
        refine ih restSorted restInside restApart _ nextInside ?_
        intro reference member
        have notBefore := nextLeast reference member
        have width := reference.kind.width_pos
        rcases nextApart reference member with behind | before
        · exact behind
        · omega
  exact general 0 (Nat.zero_le _) fun _ _ => Nat.zero_le _

/-! ## Build records -/

/-- An instruction in the code: its address and its bytes, with zeros for its references. -/
structure WrittenInstruction where
  address : Nat
  bytes : Bytes
deriving DecidableEq, Repr

namespace WrittenInstruction

/-- A reference lies inside of an instruction. -/
def Holds (written : WrittenInstruction) (fixup : Fixup) : Prop :=
  written.address ≤ fixup.address ∧
    fixup.address + fixup.kind.width ≤ written.address + written.bytes.size

/-- An instruction stands in code, in one page of it. -/
structure StandsIn (written : WrittenInstruction) (code : Bytes) : Prop where
  inCode : written.address + written.bytes.size ≤ code.size
  bytes : code.extract written.address (written.address + written.bytes.size) = written.bytes
  onePage : written.address % pageLength + written.bytes.size ≤ pageLength

end WrittenInstruction

namespace Builder

variable {error : Error}

/-- The instruction that was placed last, if its end succeeded. -/
def lastPlaced : EStateM.Result Error Builder (Option Nat) → List WrittenInstruction
  | .ok _ after => [⟨after.code.size - after.buffer.size, after.buffer⟩]
  | .error _ _ => []

/-- The instruction that a call writes. -/
def writtenBy (builder : Builder) (call : RawCall) : List WrittenInstruction :=
  match call with
  | .endInstruction => lastPlaced (call.run builder)
  | .instruction _ _ => lastPlaced (call.run builder)
  | _ => []

/-- The references of an instruction that was given up. -/
def leftOver : EStateM.Result Error Builder (Option Nat) → List Fixup
  | .error (.misplaced .emptyInstruction) after => after.recent.toList
  | .error (.instructionTooLong _) after => after.recent.toList
  | _ => []

/-- A reference that is recorded outside of instructions. -/
def recordedOutside (builder : Builder) (kind : ReferenceKind) (target : String) : List Fixup :=
  match builder.current with
  | some function =>
    if function.inInstruction then []
    else [⟨function.name, kind, target, builder.code.size + builder.buffer.size⟩]
  | none => []

/-- The references that a call leaves without an instruction: the one it records outside of
instructions, or those of the instruction it gives up. -/
def straysOf (builder : Builder) (call : RawCall) : List Fixup :=
  match call with
  | .reference kind target => builder.recordedOutside kind target
  | _ => leftOver (call.run builder)

theorem leftOver_of_rejects
    (rejects : error.Rejects)
    (after : Builder) :
    leftOver (.error error after) = after.recent.toList := by
  cases rejects <;> rfl

theorem leftOver_of_not_rejects
    (notRejected : ¬error.Rejects)
    (after : Builder) :
    leftOver (.error error after) = [] := by
  unfold leftOver
  split
  · rename_i isError
    cases isError
    exact absurd .empty notRejected
  · rename_i isError
    cases isError
    exact absurd (.tooLong _) notRejected
  · rfl

end Builder

/-- A builder with what it wrote and what it left over. -/
structure BuildRecord where
  builder : Builder := {}
  written : List WrittenInstruction := []
  strays : List Fixup := []

namespace BuildRecord

def perform (record : BuildRecord) (call : RawCall) : BuildRecord where
  builder := record.builder.next call
  written := record.written ++ record.builder.writtenBy call
  strays := record.strays ++ record.builder.straysOf call

/-- The record of calls made on a builder without code, going on after those that fail. -/
def run (calls : List RawCall) : BuildRecord :=
  calls.foldl perform {}

theorem builder_run (calls : List RawCall) : (run calls).builder = Builder.after {} calls := by
  have general : ∀ record : BuildRecord,
      (calls.foldl perform record).builder = record.builder.after calls := by
    induction calls with
    | nil => exact fun _ => rfl
    | cons call rest ih => exact fun record => ih _
  exact general {}

end BuildRecord

namespace Builder

/-! ## Accounting for references -/

section Accounts

variable {written : List WrittenInstruction} {strays : List Fixup} {builder after : Builder}
    {call : RawCall}

/-- A reference that lies inside of a written instruction, or is a stray one. -/
def AccountedFor (written : List WrittenInstruction) (strays : List Fixup) (fixup : Fixup) : Prop :=
  fixup ∈ strays ∨ ∃ instruction ∈ written, instruction.Holds fixup

theorem AccountedFor.mono
    {moreWritten : List WrittenInstruction} {moreStrays : List Fixup} {fixup : Fixup}
    (accounted : AccountedFor written strays fixup)
    (stillWritten : written ⊆ moreWritten)
    (stillStray : strays ⊆ moreStrays) :
    AccountedFor moreWritten moreStrays fixup := by
  rcases accounted with isStray | ⟨instruction, member, holds⟩
  · exact .inl (stillStray isStray)
  · exact .inr ⟨instruction, stillWritten member, holds⟩

/-- A builder between instructions all of whose references are accounted for. -/
structure AccountedBetween (written : List WrittenInstruction) (strays : List Fixup)
    (builder : Builder) : Prop where
  between : builder.Between
  stands : ∀ instruction ∈ written, instruction.StandsIn builder.code
  fixups : ∀ fixup ∈ builder.settled ++ builder.recent, AccountedFor written strays fixup

/-- A builder inside of an instruction whose references lie among the bytes to be written. -/
structure AccountedInside (written : List WrittenInstruction) (strays : List Fixup)
    (builder : Builder) : Prop where
  begun : ∃ function, builder.current = some function ∧ function.inInstruction = true
  stands : ∀ instruction ∈ written, instruction.StandsIn builder.code
  settled : ∀ fixup ∈ builder.settled, AccountedFor written strays fixup
  recent : ∀ fixup ∈ builder.recent, builder.code.size ≤ fixup.address ∧
    fixup.address + fixup.kind.width ≤ builder.code.size + builder.buffer.size

theorem standsIn_append
    {instruction : WrittenInstruction} {code : Bytes}
    (stands : instruction.StandsIn code)
    (more : Bytes) :
    instruction.StandsIn (code ++ more) where
  inCode := by
    rw [Array.size_append]
    exact Nat.le_add_right_of_le stands.inCode
  bytes := by
    rw [Array.extract_append, Nat.sub_eq_zero_of_le stands.inCode,
      Array.extract_empty_of_stop_le_start (Nat.zero_le _), Array.append_empty]
    exact stands.bytes
  onePage := stands.onePage

/-- An instruction that is short enough stands in one page where it is placed. -/
theorem standsIn_place
    (code : Bytes)
    {bytes : Bytes}
    (short : bytes.size < instructionLimit) :
    WrittenInstruction.StandsIn ⟨code.size + (gap code.size bytes).size, bytes⟩
      (code ++ gap code.size bytes ++ bytes) where
  inCode := by simp only [Array.size_append, Nat.le_refl]
  bytes := by
    have placed := extract_append_middle (code ++ gap code.size bytes) bytes #[]
    rwa [Array.append_empty, Array.size_append] at placed
  onePage := Nat.le_trans (addressFor_mod_add_le code.size short) (Nat.sub_le _ _)

/-! ### Inside of an instruction -/

namespace AccountedInside

variable (accounted : AccountedInside written strays builder)

include accounted

theorem write
    (bytes : Bytes) :
    AccountedInside written strays { builder with buffer := builder.buffer ++ bytes } := by
  refine ⟨accounted.begun, accounted.stands, accounted.settled, fun fixup member => ?_⟩
  obtain ⟨notBefore, notBehind⟩ := accounted.recent fixup member
  refine ⟨notBefore, Nat.le_trans notBehind ?_⟩
  simp only [Array.size_append]
  omega

/-- A reference that is recorded takes the next bytes of the instruction. -/
theorem reference
    (kind : ReferenceKind)
    (target : String) :
    ∃ after, Builder.reference kind target builder = .ok () after ∧
      AccountedInside written strays after := by
  obtain ⟨function, isCurrent, isBegun⟩ := accounted.begun
  simp only [Builder.reference, isCurrent]
  refine ⟨_, rfl, ⟨function, rfl, isBegun⟩, accounted.stands, accounted.settled, ?_⟩
  intro fixup member
  simp only [Array.size_append, Array.size_replicate]
  rcases Array.mem_push.mp member with earlier | rfl
  · obtain ⟨notBefore, notBehind⟩ := accounted.recent fixup earlier
    exact ⟨notBefore, by omega⟩
  · exact ⟨Nat.le_add_right _ _, Nat.le_of_eq (Nat.add_assoc _ _ _)⟩

/-- The bytes of an instruction are written with references in range. -/
theorem writeReferences
    {bytes : Bytes} {position : Nat} {references : List Reference}
    (spaced : Spaced bytes.size position references) :
    ∃ after, Builder.writeReferences bytes position references builder = .ok () after ∧
      AccountedInside written strays after := by
  induction references generalizing builder position with
  | nil =>
      have reached : position ≤ bytes.size := spaced
      unfold Builder.writeReferences
      rw [if_pos reached]
      exact ⟨_, rfl, accounted.write _⟩
  | cons next rest ih =>
      obtain ⟨reached, later⟩ := spaced
      have inBytes := later.position_le
      have inRange : position ≤ next.offset ∧ next.offset ≤ bytes.size := ⟨reached, by omega⟩
      have beforeReference := accounted.write (bytes.extract position next.offset)
      obtain ⟨middle, recorded, isInside⟩ := beforeReference.reference next.kind next.target
      unfold Builder.writeReferences
      simp only [if_pos inRange, Bind.bind, EStateM.bind, Builder.write, recorded]
      exact ih isInside later

/-- An instruction that is placed holds its references wherever the page it begins in ends. -/
theorem place
    (short : builder.buffer.size < instructionLimit)
    (function : OpenFunction) :
    AccountedBetween
      (written ++
        [⟨(builder.place function).code.size - builder.buffer.size, builder.buffer⟩])
      strays (builder.place function) := by
  have address : (builder.place function).code.size - builder.buffer.size =
      builder.code.size + (gap builder.code.size builder.buffer).size := by
    simp only [Builder.place, Array.size_append]
    omega
  have placed := standsIn_place builder.code short
  rw [address]
  refine ⟨?_, ?_, ?_⟩
  · rintro _ ⟨⟩
    rfl
  · intro instruction member
    rcases List.mem_append.mp member with earlier | isLast
    · have stands := standsIn_append (accounted.stands instruction earlier)
        (gap builder.code.size builder.buffer ++ builder.buffer)
      rwa [← Array.append_assoc] at stands
    · rw [List.mem_singleton.mp isLast]
      exact placed
  · intro fixup member
    rcases Array.mem_append.mp member with isSettled | isRecent
    · exact (accounted.settled fixup isSettled).mono (List.subset_append_left _ _)
        (List.Subset.refl _)
    · refine .inr ⟨_, List.mem_append_right _ List.mem_cons_self, ?_⟩
      simp only [Builder.place] at isRecent
      split at isRecent
      · rename_i noGap
        rw [Array.isEmpty_iff] at noGap
        obtain ⟨notBefore, notBehind⟩ := accounted.recent fixup isRecent
        rw [noGap]
        exact ⟨notBefore, notBehind⟩
      · obtain ⟨original, isOriginal, rfl⟩ := Array.mem_map.mp isRecent
        obtain ⟨notBefore, notBehind⟩ := accounted.recent original isOriginal
        constructor <;> simp only <;> omega

/-- An instruction is written at its end, or given up with its references. -/
theorem endInstruction :
    (∃ after, Builder.endInstruction builder = .ok () after ∧
        AccountedBetween
          (written ++ [⟨after.code.size - after.buffer.size, after.buffer⟩]) strays after) ∨
      ∃ error after, Builder.endInstruction builder = .error error after ∧ error.Rejects ∧
        AccountedBetween written (strays ++ after.recent.toList) after := by
  obtain ⟨function, isCurrent, isBegun⟩ := accounted.begun
  have givenUp : AccountedBetween written (strays ++ builder.recent.toList)
      { builder with current := some { function with inInstruction := false } } := by
    refine ⟨by rintro _ ⟨⟩; rfl, accounted.stands, fun fixup member => ?_⟩
    rcases Array.mem_append.mp member with isSettled | isRecent
    · exact (accounted.settled fixup isSettled).mono (List.Subset.refl _)
        (List.subset_append_left _ _)
    · exact .inl (List.mem_append_right _ (Array.mem_toList_iff.mpr isRecent))
  rcases builder.endInstruction_outcomes with
    ⟨between, -⟩ | ⟨_, isOpen, -, ⟨error, rejects, rejected⟩ | ⟨short, placed⟩⟩
  · exact absurd ((between function isCurrent).symm.trans isBegun) Bool.false_ne_true
  · cases isCurrent.symm.trans isOpen
    exact .inr ⟨error, _, rejected, rejects, givenUp⟩
  · exact .inl ⟨_, placed, accounted.place short _⟩

end AccountedInside

/-! ### Between instructions -/

/-- A builder whose references are accounted for. -/
def Accounted (written : List WrittenInstruction) (strays : List Fixup) (builder : Builder) :
    Prop :=
  AccountedInside written strays builder ∨ AccountedBetween written strays builder

/-- A call that fails without giving up an instruction adds nothing to a record. -/
theorem accounted_of_refused
    (accounted : Accounted written strays builder)
    {error : Error}
    (refused : call.run builder = .error error builder)
    (notRejected : ¬error.Rejects) :
    Accounted (written ++ builder.writtenBy call) (strays ++ builder.straysOf call)
      (builder.next call) := by
  have unchanged : builder.next call = builder := by
    simp only [next, refused]
  have nothingWritten : builder.writtenBy call = [] := by
    cases call <;> simp only [writtenBy, refused, lastPlaced]
  have noStray : builder.straysOf call = [] := by
    cases call with
    | reference kind target =>
        cases current : builder.current with
        | none => simp only [straysOf, recordedOutside, current]
        | some function =>
            simp only [RawCall.run, Bind.bind, EStateM.bind, Builder.reference, current] at refused
            cases refused
    | _ => simp only [straysOf, refused, leftOver_of_not_rejects notRejected]
  rw [unchanged, nothingWritten, noStray, List.append_nil, List.append_nil]
  exact accounted

namespace AccountedBetween

theorem beginInstruction
    (accounted : AccountedBetween written strays builder)
    (begun : Builder.beginInstruction builder = .ok () after) :
    AccountedInside written strays after := by
  rcases builder.beginInstruction_outcomes with ⟨_, -, refused⟩ | ⟨_, -, -, begins⟩
  · cases refused.symm.trans begun
  · cases begins.symm.trans begun
    exact ⟨⟨_, rfl, rfl⟩, accounted.stands, accounted.fixups, by simp⟩

/-- A whole instruction whose references are in range is written, refused or given up. -/
theorem instruction
    (accounted : AccountedBetween written strays builder)
    {bytes : Bytes} {references : List Reference}
    (fit : ReferencesFit bytes references) :
    (∃ address after, Builder.instruction bytes references builder = .ok address after ∧
        AccountedBetween
          (written ++ [⟨after.code.size - after.buffer.size, after.buffer⟩]) strays after) ∨
      (∃ error, Builder.instruction bytes references builder = .error error builder ∧
        ¬error.Rejects) ∨
      ∃ error after, Builder.instruction bytes references builder = .error error after ∧
        error.Rejects ∧ AccountedBetween written (strays ++ after.recent.toList) after := by
  simp only [Builder.instruction, Bind.bind, EStateM.bind]
  cases isBegun : Builder.beginInstruction builder with
  | error error next =>
      obtain ⟨notRejected, rfl⟩ := beginInstruction_failed isBegun
      exact .inr (.inl ⟨error, rfl, notRejected⟩)
  | ok _ next =>
      obtain ⟨middle, isWritten, isInside⟩ :=
        (accounted.beginInstruction isBegun).writeReferences fit.spaced
      simp only [isWritten, get_eq_ok]
      rcases isInside.endInstruction with
        ⟨after, ended, isAccounted⟩ | ⟨error, after, rejected, rejects, isAccounted⟩
      · simp only [ended]
        exact .inl ⟨_, after, rfl, isAccounted⟩
      · simp only [rejected]
        exact .inr (.inr ⟨error, after, rfl, rejects, isAccounted⟩)

end AccountedBetween

/-! ### Steps and runs -/

/-- A call that only names a function or a label. -/
inductive Names : RawCall → Prop
  | beginFunction (name : String) : Names (.beginFunction name)
  | endFunction : Names .endFunction
  | addLabel (label : String) : Names (.addLabel label)

/-- Such a call changes nothing but functions and labels, or fails. -/
theorem Names.outcome
    (names : Names call)
    (builder : Builder) :
    (∃ error, call.run builder = .error error builder ∧ ¬error.Rejects) ∨
      ∃ functions current, call.run builder = .ok none { builder with functions, current } ∧
        { builder with functions, current }.Between := by
  cases names with
  | beginFunction name =>
      rcases builder.beginFunction_outcomes name with ⟨error, notRejected, refused⟩ | ⟨-, -, began⟩
      · simp only [RawCall.run, Bind.bind, EStateM.bind, refused]
        exact .inl ⟨error, rfl, notRejected⟩
      · simp only [RawCall.run, Bind.bind, EStateM.bind, began]
        exact .inr ⟨_, _, rfl, by rintro _ ⟨⟩; rfl⟩
  | endFunction =>
      rcases builder.endFunction_outcomes with ⟨error, notRejected, refused⟩ | ⟨_, -, -, ended⟩
      · simp only [RawCall.run, Bind.bind, EStateM.bind, refused]
        exact .inl ⟨error, rfl, notRejected⟩
      · simp only [RawCall.run, Bind.bind, EStateM.bind, ended]
        exact .inr ⟨_, _, rfl, by rintro _ ⟨⟩⟩
  | addLabel label =>
      rcases builder.addLabel_outcomes label with
        ⟨error, notRejected, refused⟩ | ⟨function, -, notBegun, -, -, added⟩
      · simp only [RawCall.run, Bind.bind, EStateM.bind, refused]
        exact .inl ⟨error, rfl, notRejected⟩
      · simp only [RawCall.run, Bind.bind, EStateM.bind, added]
        exact .inr ⟨_, _, rfl, by rintro _ ⟨⟩; exact notBegun⟩

theorem AccountedInside.step
    (accounted : AccountedInside written strays builder)
    (call : RawCall) :
    Accounted (written ++ builder.writtenBy call) (strays ++ builder.straysOf call)
      (builder.next call) := by
  obtain ⟨function, isCurrent, isBegun⟩ := accounted.begun
  by_cases builds : call.Builds
  · cases builds with
    | write bytes =>
        simp only [writtenBy, straysOf, next, RawCall.run, Bind.bind, EStateM.bind, Builder.write,
          pure, EStateM.pure, leftOver, List.append_nil]
        exact .inl (accounted.write bytes)
    | reference kind target =>
        obtain ⟨after, recorded, isInside⟩ := accounted.reference kind target
        simp only [writtenBy, straysOf, recordedOutside, isCurrent, isBegun, if_true, next,
          RawCall.run, Bind.bind, EStateM.bind, recorded, pure, EStateM.pure, List.append_nil]
        exact .inl isInside
    | endInstruction =>
        rcases accounted.endInstruction with
          ⟨after, ended, isAccounted⟩ | ⟨error, after, rejected, rejects, isAccounted⟩
        · simp only [writtenBy, straysOf, next, RawCall.run, Bind.bind, EStateM.bind, ended, pure,
            EStateM.pure, lastPlaced, leftOver, List.append_nil]
          exact .inr isAccounted
        · simp only [writtenBy, straysOf, next, RawCall.run, Bind.bind, EStateM.bind, rejected,
            lastPlaced, leftOver_of_rejects rejects, List.append_nil]
          exact .inr isAccounted
  · obtain ⟨error, notRejected, refused⟩ := RawCall.exists_refused builds isBegun
    exact accounted_of_refused (.inl accounted) (refused builder isCurrent) notRejected

namespace AccountedBetween

variable {call : RawCall}

theorem step_names
    (accounted : AccountedBetween written strays builder)
    (names : Names call) :
    Accounted (written ++ builder.writtenBy call) (strays ++ builder.straysOf call)
      (builder.next call) := by
  rcases names.outcome builder with
    ⟨error, refused, notRejected⟩ | ⟨functions, current, succeeded, between⟩
  · exact accounted_of_refused (.inr accounted) refused notRejected
  · have nothingWritten : builder.writtenBy call = [] := by cases names <;> rfl
    have noStray : builder.straysOf call = [] := by
      cases names <;> simp only [straysOf, succeeded, leftOver]
    rw [nothingWritten, noStray, List.append_nil, List.append_nil, next, succeeded]
    exact .inr ⟨between, accounted.stands, accounted.fixups⟩

/-- A reference that is recorded between instructions is a stray one. -/
theorem step_reference
    (accounted : AccountedBetween written strays builder)
    (kind : ReferenceKind)
    (target : String) :
    Accounted (written ++ builder.writtenBy (.reference kind target))
      (strays ++ builder.straysOf (.reference kind target))
      (builder.next (.reference kind target)) := by
  cases current : builder.current with
  | none =>
      have refused : (RawCall.reference kind target).run builder =
          .error (.misplaced .referenceOutsideFunction) builder := by
        simp only [RawCall.run, Bind.bind, EStateM.bind, Builder.reference, current]
      exact accounted_of_refused (.inr accounted) refused (by rintro ⟨⟩)
  | some function =>
      simp only [writtenBy, straysOf, recordedOutside, current,
        accounted.between function current, Bool.false_eq_true, if_false, next, RawCall.run,
        Bind.bind, EStateM.bind, Builder.reference, pure, EStateM.pure, List.append_nil]
      refine .inr ⟨?_, accounted.stands, fun fixup member => ?_⟩
      · rintro _ ⟨⟩
        exact accounted.between function current
      · rw [Array.append_push] at member
        rcases Array.mem_push.mp member with earlier | rfl
        · exact (accounted.fixups fixup earlier).mono (List.Subset.refl _)
            (List.subset_append_left _ _)
        · exact .inl (List.mem_append_right _ List.mem_cons_self)

theorem step
    (accounted : AccountedBetween written strays builder)
    (inRange : call.InRange) :
    Accounted (written ++ builder.writtenBy call) (strays ++ builder.straysOf call)
      (builder.next call) := by
  cases call with
  | beginFunction name => exact accounted.step_names (.beginFunction name)
  | endFunction => exact accounted.step_names .endFunction
  | addLabel label => exact accounted.step_names (.addLabel label)
  | beginInstruction =>
      cases result : Builder.beginInstruction builder with
      | error error after =>
          obtain ⟨notRejected, unchanged⟩ := beginInstruction_failed result
          have refused : RawCall.beginInstruction.run builder = .error error builder := by
            simp only [RawCall.run, Bind.bind, EStateM.bind, result, unchanged]
          exact accounted_of_refused (.inr accounted) refused notRejected
      | ok _ after =>
          simp only [writtenBy, straysOf, next, RawCall.run, Bind.bind, EStateM.bind, result, pure,
            EStateM.pure, leftOver, List.append_nil]
          exact .inl (accounted.beginInstruction result)
  | endInstruction =>
      rcases builder.endInstruction_outcomes with
        ⟨-, error, notRejected, refused⟩ | ⟨function, current, isBegun, -⟩
      · have refusedCall : RawCall.endInstruction.run builder = .error error builder := by
          simp only [RawCall.run, Bind.bind, EStateM.bind, refused]
        exact accounted_of_refused (.inr accounted) refusedCall notRejected
      · have between := accounted.between function current
        exact absurd (between.symm.trans isBegun) Bool.false_ne_true
  | write bytes =>
      simp only [writtenBy, straysOf, next, RawCall.run, Bind.bind, EStateM.bind, Builder.write,
        pure, EStateM.pure, leftOver, List.append_nil]
      exact .inr ⟨accounted.between, accounted.stands, accounted.fixups⟩
  | reference kind target => exact accounted.step_reference kind target
  | instruction bytes references =>
      rcases accounted.instruction inRange with
        ⟨address, after, placed, isAccounted⟩ | ⟨error, refused, notRejected⟩ |
          ⟨error, after, rejected, rejects, isAccounted⟩
      · simp only [writtenBy, straysOf, next, RawCall.run, Bind.bind, EStateM.bind, placed, pure,
          EStateM.pure, lastPlaced, leftOver, List.append_nil]
        exact .inr isAccounted
      · have refusedCall : (RawCall.instruction bytes references).run builder =
            .error error builder := by
          simp only [RawCall.run, Bind.bind, EStateM.bind, refused]
        exact accounted_of_refused (.inr accounted) refusedCall notRejected
      · simp only [writtenBy, straysOf, next, RawCall.run, Bind.bind, EStateM.bind, rejected,
          lastPlaced, leftOver_of_rejects rejects, List.append_nil]
        exact .inr isAccounted

end AccountedBetween

/-- Every call keeps account of the references. -/
theorem Accounted.step
    (accounted : Accounted written strays builder)
    (inRange : call.InRange) :
    Accounted (written ++ builder.writtenBy call) (strays ++ builder.straysOf call)
      (builder.next call) := by
  rcases accounted with inside | between
  · exact inside.step call
  · exact between.step inRange

end Accounts
end Builder

namespace BuildRecord

/-- Every run keeps account of the references. -/
theorem accounted_run
    {calls : List RawCall}
    (inRange : ∀ call ∈ calls, call.InRange) :
    Accounted (run calls).written (run calls).strays (run calls).builder := by
  have general : ∀ record : BuildRecord,
      Accounted record.written record.strays record.builder →
      Accounted (calls.foldl perform record).written (calls.foldl perform record).strays
        (calls.foldl perform record).builder := by
    induction calls with
    | nil => exact fun _ accounted => accounted
    | cons call rest ih =>
        obtain ⟨here, later⟩ := List.forall_mem_cons.mp inRange
        exact fun record accounted => ih later _ (accounted.step here)
  exact general {} (.inr ⟨by rintro _ ⟨⟩, List.forall_mem_nil _, by simp⟩)

end BuildRecord

end ScriptBytecode
