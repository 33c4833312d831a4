import ScriptBytecode.Proofs.LinkFailures

/-!
# Builders in lockstep

Two builders that differ only by references that one of them has in addition, and by bytes written
outside of instructions, answer all calls alike as long as references are recorded inside of
instructions only.  In the end the results differ by these references: the build is finished with
them exactly if it is finished without them and each of them can be resolved.
-/

namespace ScriptBytecode

/-! ## Calls and what can be seen of them -/

/-- A call of a builder. -/
inductive RawCall where
  | beginFunction (name : String)
  | endFunction
  | addLabel (label : String)
  | beginInstruction
  | endInstruction
  | write (bytes : Bytes)
  | reference (kind : ReferenceKind) (target : String)
  | instruction (bytes : Bytes) (references : List Reference)
deriving DecidableEq

/-- Makes a call.  A whole instruction is answered with its address, other calls with nothing. -/
def RawCall.run : RawCall → BuildM (Option Nat)
  | .beginFunction name => Builder.beginFunction name >>= fun _ => pure none
  | .endFunction => Builder.endFunction >>= fun _ => pure none
  | .addLabel label => Builder.addLabel label >>= fun _ => pure none
  | .beginInstruction => Builder.beginInstruction >>= fun _ => pure none
  | .endInstruction => Builder.endInstruction >>= fun _ => pure none
  | .write bytes => Builder.write bytes >>= fun _ => pure none
  | .reference kind target => Builder.reference kind target >>= fun _ => pure none
  | .instruction bytes references =>
    Builder.instruction bytes references >>= fun address => pure (some address)

/-- What a builder can be asked for: the length of the code and the addresses of functions and
labels. -/
structure BuilderView where
  length : Nat
  functionAddress? : String → Option Nat
  labelAddress? : String → String → Option Nat

namespace Builder

/-- What a builder shows. -/
def view (builder : Builder) : BuilderView :=
  ⟨builder.code.size, builder.functionAddress?, builder.labelAddress?⟩

/-- The answer to a call. -/
def answer (builder : Builder) (call : RawCall) : Except Error (Option Nat) :=
  match call.run builder with
  | .ok address _ => .ok address
  | .error error _ => .error error

/-- The builder after a call, whether it succeeds or fails. -/
def next (builder : Builder) (call : RawCall) : Builder :=
  match call.run builder with
  | .ok _ after => after
  | .error _ after => after

/-- The builder after calls, going on after those that fail. -/
def after (builder : Builder) (calls : List RawCall) : Builder :=
  calls.foldl next builder

/-- The answers to calls, each with what the builder shows then. -/
def answers : Builder → List RawCall → List (Except Error (Option Nat) × BuilderView)
  | _, [] => []
  | builder, call :: rest =>
    (builder.answer call, (builder.next call).view) :: answers (builder.next call) rest

/-- References are recorded inside of instructions only. -/
def RecordsInside : Builder → List RawCall → Prop
  | _, [] => True
  | builder, call :: rest =>
    (∀ kind target, call = .reference kind target → ¬builder.Between) ∧
      RecordsInside (builder.next call) rest

theorem get_bind {α : Type} (action : Builder → BuildM α) (builder : Builder) :
    (get >>= action) builder = action builder builder :=
  rfl

end Builder

/-! ## Calls of an open instruction -/

/-- A call that belongs to an instruction that was begun. -/
inductive RawCall.Builds : RawCall → Prop
  | write (bytes : Bytes) : Builds (.write bytes)
  | reference (kind : ReferenceKind) (target : String) : Builds (.reference kind target)
  | endInstruction : Builds .endInstruction

/-- Other calls fail while an instruction is being built, and leave it as it is. -/
theorem RawCall.exists_refused
    {call : RawCall}
    (builds : ¬call.Builds)
    {function : OpenFunction}
    (isBegun : function.inInstruction = true) :
    ∃ error : Error, ¬error.Rejects ∧ ∀ builder : Builder, builder.current = some function →
      call.run builder = .error error builder := by
  cases call with
  | write bytes => exact absurd (.write bytes) builds
  | reference kind target => exact absurd (.reference kind target) builds
  | endInstruction => exact absurd .endInstruction builds
  | beginFunction name =>
      refine ⟨.misplaced .functionInsideFunction, by rintro ⟨⟩, fun builder current => ?_⟩
      simp [run, Builder.beginFunction, current, bind, EStateM.bind]
  | endFunction =>
      refine ⟨.misplaced .functionEndInsideInstruction, by rintro ⟨⟩, fun builder current => ?_⟩
      simp [run, Builder.endFunction, current, isBegun, bind, EStateM.bind]
  | addLabel label =>
      cases empty : label.isEmpty with
      | true =>
          refine ⟨.emptyLabel, by rintro ⟨⟩, fun builder current => ?_⟩
          simp [run, Builder.addLabel, empty, bind, EStateM.bind]
      | false =>
          refine ⟨.misplaced .labelInsideInstruction, by rintro ⟨⟩, fun builder current => ?_⟩
          simp [run, Builder.addLabel, empty, current, isBegun, bind, EStateM.bind]
  | beginInstruction =>
      refine ⟨.misplaced .instructionInsideInstruction, by rintro ⟨⟩, fun builder current => ?_⟩
      simp [run, Builder.beginInstruction, current, isBegun, bind, EStateM.bind]
  | instruction bytes references =>
      refine ⟨.misplaced .instructionInsideInstruction, by rintro ⟨⟩, fun builder current => ?_⟩
      simp [run, Builder.instruction, Builder.beginInstruction, current, isBegun, bind,
        EStateM.bind]

namespace Builder

/-! ## Two builders in lockstep -/

/-- Two builders that are building the same instruction.  The first one has references that the
second one has not. -/
structure AlikeInside (recorded : Array Fixup) (left clean : Builder) : Prop where
  code : left.code = clean.code
  functions : left.functions = clean.functions
  current : left.current = clean.current
  begun : ∃ function, clean.current = some function ∧ function.inInstruction = true
  buffer : left.buffer = clean.buffer
  recent : left.recent = clean.recent
  settled : ∃ earlier later,
    left.settled = earlier ++ recorded ++ later ∧ clean.settled = earlier ++ later

/-- Two builders between the same instructions.  The first one has references that the second one
has not. -/
structure AlikeBetween (recorded : Array Fixup) (left clean : Builder) : Prop where
  code : left.code = clean.code
  functions : left.functions = clean.functions
  current : left.current = clean.current
  between : clean.Between
  fixups : ∃ earlier later, left.settled ++ left.recent = earlier ++ recorded ++ later ∧
    clean.settled ++ clean.recent = earlier ++ later

/-- Two builders that differ by the references left over. -/
def Alike (recorded : Array Fixup) (left clean : Builder) : Prop :=
  AlikeInside recorded left clean ∨ AlikeBetween recorded left clean

/-- Results with the same answer or error, in builders that are related. -/
inductive SameOutcome
    {α : Type}
    (succeeded failed : Builder → Builder → Prop) :
    EStateM.Result Error Builder α → EStateM.Result Error Builder α → Prop
  | ok
      {value : α}
      {left clean : Builder}
      (related : succeeded left clean) :
      SameOutcome succeeded failed (.ok value left) (.ok value clean)
  | error
      {error : Error}
      {left clean : Builder}
      (related : failed left clean) :
      SameOutcome succeeded failed (.error error left) (.error error clean)

namespace SameOutcome

variable {α β : Type} {middle succeeded failed : Builder → Builder → Prop} {left clean : Builder}

theorem bind
    {action : BuildM α} {continuation : α → BuildM β}
    (first : SameOutcome middle failed (action left) (action clean))
    (later : ∀ value left clean, middle left clean →
      SameOutcome succeeded failed (continuation value left) (continuation value clean)) :
    SameOutcome succeeded failed ((action >>= continuation) left)
      ((action >>= continuation) clean) := by
  simp only [Bind.bind, EStateM.bind]
  generalize action left = here, action clean = there at first
  cases first with
  | ok related => exact later _ _ _ related
  | error related => exact .error related

theorem mono
    {other : Builder → Builder → Prop} {here there : EStateM.Result Error Builder α}
    (same : SameOutcome middle other here there)
    (onSuccess : ∀ left clean, middle left clean → succeeded left clean)
    (onFailure : ∀ left clean, other left clean → failed left clean) :
    SameOutcome succeeded failed here there := by
  cases same with
  | ok related => exact .ok (onSuccess _ _ related)
  | error related => exact .error (onFailure _ _ related)

end SameOutcome

/-! ### Between instructions -/

namespace AlikeBetween

variable {recorded : Array Fixup} {left clean : Builder}

variable (alike : AlikeBetween recorded left clean)

include alike

theorem beginFunction (name : String) :
    SameOutcome (AlikeBetween recorded) (AlikeBetween recorded) (Builder.beginFunction name left)
      (Builder.beginFunction name clean) := by
  simp only [Builder.beginFunction, alike.current, alike.functions]
  split
  · exact .error alike
  · split
    · exact .error alike
    · refine .ok ⟨alike.code, rfl, rfl, ?_, alike.fixups⟩
      rintro _ ⟨⟩
      rfl

theorem endFunction :
    SameOutcome (AlikeBetween recorded) (AlikeBetween recorded) (Builder.endFunction left)
      (Builder.endFunction clean) := by
  simp only [Builder.endFunction, alike.current, alike.functions, alike.code]
  split
  · exact .error alike
  · split
    · exact .error alike
    · exact .ok ⟨rfl, rfl, rfl, by rintro _ ⟨⟩, alike.fixups⟩

theorem addLabel (label : String) :
    SameOutcome (AlikeBetween recorded) (AlikeBetween recorded) (Builder.addLabel label left)
      (Builder.addLabel label clean) := by
  simp only [Builder.addLabel, alike.current]
  split
  · exact .error alike
  · split
    · exact .error alike
    · rename_i function current
      split
      · exact .error alike
      · split
        · exact .error alike
        · refine .ok ⟨alike.code, alike.functions, rfl, ?_, alike.fixups⟩
          rintro _ ⟨⟩
          exact alike.between function current

/-- Beginning an instruction clears what was written before and settles all references. -/
theorem beginInstruction :
    SameOutcome (AlikeInside recorded) (Alike recorded) (Builder.beginInstruction left)
      (Builder.beginInstruction clean) := by
  simp only [Builder.beginInstruction, alike.current]
  split
  · exact .error (.inr alike)
  · split
    · exact .error (.inr alike)
    · exact .ok ⟨alike.code, alike.functions, rfl, ⟨_, rfl, rfl⟩, rfl, rfl, alike.fixups⟩

theorem endInstruction :
    SameOutcome (AlikeBetween recorded) (AlikeBetween recorded) (Builder.endInstruction left)
      (Builder.endInstruction clean) := by
  simp only [Builder.endInstruction, alike.current]
  split
  · exact .error alike
  · rename_i function current
    rw [alike.between function current]
    exact .error alike

end AlikeBetween

/-! ### Inside of instructions -/

namespace AlikeInside

variable {recorded : Array Fixup} {left clean : Builder}

variable (alike : AlikeInside recorded left clean)

include alike

theorem write (bytes : Bytes) :
    SameOutcome (AlikeInside recorded) (Alike recorded) (Builder.write bytes left)
      (Builder.write bytes clean) :=
  .ok { alike with buffer := congrArg (· ++ bytes) alike.buffer }

theorem reference
    (kind : ReferenceKind)
    (target : String) :
    SameOutcome (AlikeInside recorded) (Alike recorded) (Builder.reference kind target left)
      (Builder.reference kind target clean) := by
  obtain ⟨function, isCurrent, isBegun⟩ := alike.begun
  simp only [Builder.reference, alike.current, isCurrent, alike.code, alike.buffer, alike.recent]
  exact .ok ⟨rfl, alike.functions, rfl, ⟨function, rfl, isBegun⟩, rfl, rfl, alike.settled⟩

theorem writeReferences
    (bytes : Bytes)
    (position : Nat)
    (references : List Reference) :
    SameOutcome (AlikeInside recorded) (Alike recorded)
      (Builder.writeReferences bytes position references left)
      (Builder.writeReferences bytes position references clean) := by
  induction references generalizing left clean position with
  | nil =>
      unfold Builder.writeReferences
      split
      · exact alike.write _
      · exact .error (.inl alike)
  | cons first rest ih =>
      unfold Builder.writeReferences
      split
      · refine (alike.write _).bind fun _ left clean alike => ?_
        refine (alike.reference _ _).bind fun _ left clean alike => ?_
        exact ih alike _
      · exact .error (.inl alike)

/-- The references of an instruction are moved alike when it is placed, and those left over stay
where they are. -/
theorem endInstruction :
    SameOutcome (AlikeBetween recorded) (AlikeBetween recorded) (Builder.endInstruction left)
      (Builder.endInstruction clean) := by
  obtain ⟨function, isCurrent, isBegun⟩ := alike.begun
  obtain ⟨earlier, later, leftSettled, cleanSettled⟩ := alike.settled
  have fixups : ∀ recent, ∃ earlier later, left.settled ++ recent = earlier ++ recorded ++ later ∧
      clean.settled ++ recent = earlier ++ later := by
    intro recent
    refine ⟨earlier, later ++ recent, ?_, ?_⟩
    · rw [leftSettled, Array.append_assoc]
    · rw [cleanSettled, Array.append_assoc]
  have ended : ∀ function opened : OpenFunction,
      some { function with inInstruction := false } = some opened →
        opened.inInstruction = false := by
    rintro function _ ⟨⟩
    rfl
  simp only [Builder.endInstruction, place, alike.current, isCurrent, isBegun, alike.buffer,
    alike.code, alike.recent, Bool.not_true, Bool.false_eq_true, if_false]
  split
  · exact .error ⟨rfl, alike.functions, rfl, ended _, fixups _⟩
  · split
    · exact .error ⟨rfl, alike.functions, rfl, ended _, fixups _⟩
    · exact .ok ⟨rfl, alike.functions, rfl, ended _, fixups _⟩

theorem run (call : RawCall) :
    SameOutcome (Alike recorded) (Alike recorded) (call.run left) (call.run clean) := by
  have kept : ∀ (value : Unit) (left clean : Builder), AlikeInside recorded left clean →
      SameOutcome (Alike recorded) (Alike recorded) ((pure none : BuildM (Option Nat)) left)
        ((pure none : BuildM (Option Nat)) clean) :=
    fun _ _ _ alike => .ok (.inl alike)
  by_cases builds : call.Builds
  · cases builds with
    | write bytes => exact (alike.write bytes).bind kept
    | reference kind target => exact (alike.reference kind target).bind kept
    | endInstruction =>
        exact (alike.endInstruction.mono (fun _ _ => id) fun _ _ => .inr).bind
          fun _ _ _ alike => .ok (.inr alike)
  · obtain ⟨function, isCurrent, isBegun⟩ := alike.begun
    obtain ⟨error, -, refused⟩ := call.exists_refused builds isBegun
    rw [refused clean isCurrent, refused left (alike.current.trans isCurrent)]
    exact .error (.inl alike)

end AlikeInside

namespace AlikeBetween

variable {recorded : Array Fixup} {left clean : Builder}

theorem instruction
    (alike : AlikeBetween recorded left clean)
    (bytes : Bytes)
    (references : List Reference) :
    SameOutcome (AlikeBetween recorded) (Alike recorded)
      (Builder.instruction bytes references left) (Builder.instruction bytes references clean) := by
  refine alike.beginInstruction.bind fun _ left clean inside => ?_
  refine (inside.writeReferences _ _ _).bind fun _ left clean inside => ?_
  rw [get_bind, get_bind, inside.buffer]
  refine (inside.endInstruction.mono (fun _ _ => id) fun _ _ => .inr).bind
    fun _ left clean alike => ?_
  rw [get_bind, get_bind, alike.code]
  exact .ok alike

theorem run
    (alike : AlikeBetween recorded left clean)
    {call : RawCall}
    (notReference : ∀ kind target, call ≠ .reference kind target) :
    SameOutcome (Alike recorded) (Alike recorded) (call.run left) (call.run clean) := by
  have silent : ∀ {action : BuildM Unit},
      SameOutcome (AlikeBetween recorded) (AlikeBetween recorded) (action left) (action clean) →
        SameOutcome (Alike recorded) (Alike recorded)
          ((action >>= fun _ => (pure none : BuildM (Option Nat))) left)
          ((action >>= fun _ => (pure none : BuildM (Option Nat))) clean) := by
    intro action same
    exact (same.mono (fun _ _ => .inr) fun _ _ => .inr).bind fun _ _ _ alike => .ok alike
  cases call with
  | beginFunction name => exact silent (alike.beginFunction name)
  | endFunction => exact silent alike.endFunction
  | addLabel label => exact silent (alike.addLabel label)
  | beginInstruction => exact alike.beginInstruction.bind fun _ _ _ inside => .ok (.inl inside)
  | endInstruction => exact silent alike.endInstruction
  | write bytes => exact .ok (.inr ⟨alike.code, alike.functions, alike.current, alike.between,
      alike.fixups⟩)
  | reference kind target => exact absurd rfl (notReference kind target)
  | instruction bytes references =>
      exact (alike.instruction bytes references).bind fun _ _ _ alike => .ok (.inr alike)

end AlikeBetween

/-! ### Runs -/

section Runs

variable {recorded : Array Fixup} {left clean : Builder}

variable (alike : Alike recorded left clean)

include alike

/-- One call is answered alike and keeps the builders alike. -/
theorem Alike.step
    {call : RawCall}
    (inside : ∀ kind target, call = .reference kind target → ¬clean.Between) :
    left.answer call = clean.answer call ∧ Alike recorded (left.next call) (clean.next call) := by
  have same : SameOutcome (Alike recorded) (Alike recorded) (call.run left) (call.run clean) := by
    rcases alike with alike | alike
    · exact alike.run call
    · exact alike.run fun kind target isCall => inside kind target isCall alike.between
  unfold answer next
  generalize call.run left = here, call.run clean = there at same
  cases same with
  | ok alike => exact ⟨rfl, alike⟩
  | error alike => exact ⟨rfl, alike⟩

theorem Alike.sameSymbols :
    left.code = clean.code ∧ left.functions = clean.functions ∧ left.current = clean.current := by
  rcases alike with alike | alike
  · exact ⟨alike.code, alike.functions, alike.current⟩
  · exact ⟨alike.code, alike.functions, alike.current⟩

theorem Alike.view : left.view = clean.view := by
  obtain ⟨code, functions, current⟩ := alike.sameSymbols
  have functionAddress : left.functionAddress? = clean.functionAddress? := by
    funext name
    simp only [functionAddress?, code, functions, current]
  have labelAddress : left.labelAddress? = clean.labelAddress? := by
    funext function label
    simp only [labelAddress?, code, functions, current]
  rw [Builder.view, Builder.view, code, functionAddress, labelAddress]

/-- So are all calls of a run. -/
theorem Alike.run
    {calls : List RawCall}
    (inside : clean.RecordsInside calls) :
    left.answers calls = clean.answers calls ∧
      Alike recorded (left.after calls) (clean.after calls) := by
  induction calls generalizing left clean with
  | nil => exact ⟨rfl, alike⟩
  | cons call rest ih =>
      obtain ⟨here, later⟩ := inside
      obtain ⟨sameAnswer, nextAlike⟩ := alike.step here
      obtain ⟨sameAnswers, lastAlike⟩ := ih nextAlike later
      refine ⟨?_, lastAlike⟩
      rw [answers, answers, sameAnswer, nextAlike.view, sameAnswers]

/-- The references left over stand among the others. -/
theorem Alike.fixups :
    ∃ earlier later, left.settled ++ left.recent = earlier ++ recorded ++ later ∧
      clean.settled ++ clean.recent = earlier ++ later := by
  rcases alike with alike | alike
  · obtain ⟨earlier, later, leftSettled, cleanSettled⟩ := alike.settled
    refine ⟨earlier, later ++ clean.recent, ?_, ?_⟩
    · rw [leftSettled, alike.recent, Array.append_assoc]
    · rw [cleanSettled, Array.append_assoc]
  · exact alike.fixups

end Runs

end Builder

/-! ## Finishing -/

/-- A reference that can be resolved and that lies in a page of code of a given size. -/
def Fixup.Patchable (functions : Array FunctionSymbols) (codeSize : Nat) (fixup : Fixup) : Prop :=
  fixup.Resolvable functions ∧ inPage codeSize fixup.address fixup.kind.width = true

namespace Fixup

theorem resolve_iff_patchable (functions : Array FunctionSymbols) (code : Bytes) (fixup : Fixup) :
    (fixup.Patchable functions code.size ∧
      ∃ next, fixup.resolve functions code = .ok next ∧ next.size = code.size) ∨
      ¬fixup.Patchable functions code.size ∧
        ∃ error, fixup.resolve functions code = .error error := by
  cases inPages : inPage code.size fixup.address fixup.kind.width with
  | true =>
      rcases resolve_cases functions inPages with ⟨resolvable, resolved⟩ | ⟨error, failed, stopped⟩
      · exact .inl ⟨⟨resolvable, inPages⟩, resolved⟩
      · exact .inr ⟨fun patchable => not_resolvable failed patchable.1, error, stopped⟩
  | false =>
      refine .inr ⟨fun patchable => Bool.false_ne_true (inPages.symm.trans patchable.2), ?_⟩
      cases found : fixup.operand functions with
      | error error => exact ⟨error, by simp only [resolve, found]⟩
      | ok operand =>
          refine ⟨.referenceOutOfBounds, ?_⟩
          simp [resolve, found, patch, length_operand found, inPages]

/-- Code keeps its size when references are resolved, which succeeds exactly if each can be. -/
theorem foldlM_resolve_iff_patchable
    (functions : Array FunctionSymbols)
    (code : Bytes)
    (fixups : List Fixup) :
    ((∀ fixup ∈ fixups, fixup.Patchable functions code.size) ∧
      ∃ result, fixups.foldlM (Fixup.resolve functions) code = .ok result ∧
        result.size = code.size) ∨
      (¬∀ fixup ∈ fixups, fixup.Patchable functions code.size) ∧
        ∃ error, fixups.foldlM (Fixup.resolve functions) code = .error error := by
  induction fixups generalizing code with
  | nil => exact .inl ⟨List.forall_mem_nil _, code, rfl, rfl⟩
  | cons first rest ih =>
      rw [List.foldlM_cons, List.forall_mem_cons]
      rcases resolve_iff_patchable functions code first with
        ⟨patchable, next, resolved, sameSize⟩ | ⟨unpatchable, error, failed⟩
      · have later := ih next
        rw [sameSize] at later
        rw [resolved, and_iff_right patchable]
        exact later
      · rw [failed]
        exact .inr ⟨fun all => unpatchable all.1, error, rfl⟩

end Fixup

namespace Builder

/-- Results of finishing two builders of which the first has references that the second has not.
They keep the first one from being finished unless all of them can be resolved. -/
structure SameFinish (recorded : Array Fixup) (left clean : Builder) : Prop where
  finishes : (∃ linked, left.finish = .ok linked) ↔
    (∃ linked, clean.finish = .ok linked) ∧
      ∀ fixup ∈ recorded, fixup.Patchable clean.functions clean.code.size
  shape : ∀ linked other, left.finish = .ok linked → clean.finish = .ok other →
    linked.length = other.length ∧ linked.functions = other.functions
  same : recorded = #[] → left.finish = clean.finish

variable {recorded : Array Fixup} {left clean : Builder}

/-- A build outside of functions is finished exactly if all its references can be resolved. -/
theorem exists_finish_iff
    {builder : Builder}
    (outside : builder.current = none) :
    (∃ linked, builder.finish = .ok linked) ↔
      ∀ fixup ∈ builder.settled ++ builder.recent,
        fixup.Patchable builder.functions builder.code.size := by
  rw [finish_eq_map outside, exists_map_eq_ok_iff]
  rcases Fixup.foldlM_resolve_iff_patchable builder.functions builder.code
    (builder.settled ++ builder.recent).toList with
    ⟨all, result, resolved, -⟩ | ⟨notAll, error, failed⟩
  · simp only [Array.mem_toList_iff] at all
    exact ⟨fun _ => all, fun _ => ⟨result, resolved⟩⟩
  · simp only [Array.mem_toList_iff] at notAll
    refine ⟨?_, fun all => absurd all notAll⟩
    rintro ⟨result, resolved⟩
    rw [failed] at resolved
    cases resolved

/-- The length and the addresses of functions do not depend on the references. -/
theorem shape_of_finish
    {builder : Builder} {linked : LinkedCode}
    (finished : builder.finish = .ok linked) :
    linked.length = builder.code.size ∧
      linked.functions = builder.functions.map fun symbols => (symbols.name, symbols.start) := by
  cases outside : builder.current with
  | some function => simp [finish, outside] at finished
  | none =>
      rw [finish_eq_map outside] at finished
      rcases Fixup.foldlM_resolve_iff_patchable builder.functions builder.code
        (builder.settled ++ builder.recent).toList with
        ⟨-, result, resolved, sameSize⟩ | ⟨-, error, failed⟩
      · rw [resolved] at finished
        cases finished
        exact ⟨sameSize, rfl⟩
      · rw [failed] at finished
        cases finished

theorem Alike.sameFinish (alike : Alike recorded left clean) : SameFinish recorded left clean := by
  obtain ⟨code, functions, current⟩ := alike.sameSymbols
  cases outside : clean.current with
  | some function =>
      have failed : clean.finish = .error (.misplaced .buildFinishedInsideFunction) := by
        simp [finish, outside]
      have leftFailed : left.finish = .error (.misplaced .buildFinishedInsideFunction) := by
        simp [finish, current, outside]
      exact ⟨by simp [failed, leftFailed], by simp [failed], fun _ => leftFailed.trans failed.symm⟩
  | none =>
      have leftOutside := current.trans outside
      obtain ⟨earlier, later, leftFixups, cleanFixups⟩ := alike.fixups
      -- Code and symbols are the same, so only the references left over can make a difference.
      refine ⟨?_, ?_, ?_⟩
      · rw [exists_finish_iff outside, exists_finish_iff leftOutside, leftFixups, cleanFixups,
          code, functions]
        simp only [Array.mem_append]
        constructor
        · intro all
          exact ⟨fun fixup member => all fixup (member.imp_left .inl),
            fun fixup member => all fixup (.inl (.inr member))⟩
        · rintro ⟨others, all⟩ fixup ((inEarlier | isRecorded) | inLater)
          · exact others fixup (.inl inEarlier)
          · exact all fixup isRecorded
          · exact others fixup (.inr inLater)
      · intro linked other leftFinished finished
        obtain ⟨leftLength, leftFunctions⟩ := shape_of_finish leftFinished
        obtain ⟨length, sameFunctions⟩ := shape_of_finish finished
        rw [leftLength, length, leftFunctions, sameFunctions, code, functions]
        exact ⟨rfl, rfl⟩
      · rintro rfl
        have sameFixups : left.settled ++ left.recent = clean.settled ++ clean.recent := by
          rw [leftFixups, cleanFixups, Array.append_empty]
        have sameLink : left.linkedAs = clean.linkedAs := by
          funext code
          rw [linkedAs, linkedAs, functions]
        rw [finish_eq_map outside, finish_eq_map leftOutside, sameFixups, sameLink, code, functions]

end Builder
end ScriptBytecode
