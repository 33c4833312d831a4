import ScriptBytecode.Proofs.FinishedUnits
import ScriptBytecode.Proofs.ReassembledScript

/-!
# Where items are assembled

The address of every item of a listing follows from the listing: instructions are placed one after
the other, each at the end of the code or at the start of the next page, and a label stands for the
next instruction of its function.  Assembling a listing without fusing makes one builder call for
every item, and the answers to these calls are the addresses of the items.
-/

namespace ScriptBytecode
namespace Listing

open Builder

/-! ## Addresses of items -/

/-- The bytes of an order, with zeros for what is filled in later. -/
def Order.bytes : Order → Bytes
  | .statement other => other.fragment.bytes
  | .native parameters returns _ => (Statement.native parameters returns 0).fragment.bytes

/-- The bytes of an item that is an instruction. -/
def Item.bytes? : Item → Option Bytes
  | .label _ => none
  | .instruction _ mnemonic operands =>
    (readInstruction mnemonic operands).toOption.map Order.bytes

/-- The size of code after items were placed. -/
def sizeAfterItems (size : Nat) (items : List Item) : Nat :=
  (items.filterMap Item.bytes?).foldl (fun size bytes => addressFor size bytes + bytes.size) size

/-- The address of the next one of some instructions, or the size of the code before them if there
is none. -/
def nextPlace (size : Nat) (items : List Item) : Nat :=
  ((items.filterMap Item.bytes?).head?.map (addressFor size)).getD size

/-- The item of a function at an index. -/
def item? (functions : List Function) (function index : Nat) : Option Item :=
  functions[function]?.bind fun function => function.items[index]?

/-- The items of a function from an index on. -/
def itemsFrom (functions : List Function) (function index : Nat) : List Item :=
  (functions[function]?.elim [] Function.items).drop index

/-- The items before one of a function, those of the functions before it included. -/
def itemsBefore (functions : List Function) (function index : Nat) : List Item :=
  (functions.take function).flatMap Function.items ++
    (functions[function]?.elim [] Function.items).take index

/-- The address of an item.  A label has that of the next instruction of its function, or that
where the function ends. -/
def address (functions : List Function) (function index : Nat) : Nat :=
  nextPlace (sizeAfterItems 0 (itemsBefore functions function index))
    (itemsFrom functions function index)

/-! ## The builder calls of items -/

/-- The builder call that an item is assembled by. -/
inductive Item.Calls : Item → BuildCall → Prop
  | label (name : String) : Calls (.label name) (.addLabel name)
  | statement
      {mnemonic : String}
      {operands : List String}
      {statement : Statement}
      (remark : Option Nat)
      (isRead : readInstruction mnemonic operands = .ok (.statement statement)) :
      Calls (.instruction remark mnemonic operands) (.emit statement)
  | native
      {mnemonic : String}
      {operands : List String}
      {parameters returns : UInt8}
      {hash : UInt64}
      (remark : Option Nat)
      (isRead : readInstruction mnemonic operands = .ok (.native parameters returns hash))
      (index : UInt16) :
      Calls (.instruction remark mnemonic operands) (.emit (.native parameters returns index))

/-- The builder steps that items are assembled by, one for each. -/
abbrev StepsOf : List Item → List BuildStep → Prop :=
  List.Forall₂ fun item step => item.Calls step.1

/-- The builder steps that functions are assembled by. -/
inductive SessionOf : List Function → List BuildStep → Prop
  | nil : SessionOf [] []
  | cons
      {function : Function}
      {functions : List Function}
      {itemSteps others : List BuildStep}
      (start stop : Nat)
      (stepsOf : StepsOf function.items itemSteps)
      (session : SessionOf functions others) :
      SessionOf (function :: functions)
        ((.beginFunction function.name, start) :: (itemSteps ++ (.endFunction, stop) :: others))

/-- Where a statement is placed depends on its size and opcode only. -/
theorem addressFor_fragment_congr
    {statement other : Statement}
    (sameSize : statement.fragment.bytes.size = other.fragment.bytes.size)
    (sameOpcode : statement.opcode = other.opcode)
    (size : Nat) :
    addressFor size statement.fragment.bytes = addressFor size other.fragment.bytes := by
  have crosses : Crosses size statement.fragment.bytes ↔ Crosses size other.fragment.bytes := by
    simp only [Crosses, reservedBytes_fragment, sameSize, sameOpcode]
  simp only [addressFor_eq, crosses]

theorem Item.bytes?_of_read
    {mnemonic : String} {operands : List String} {order : Order}
    (isRead : readInstruction mnemonic operands = .ok order)
    (remark : Option Nat) :
    Item.bytes? (.instruction remark mnemonic operands) = some order.bytes := by
  rw [Item.bytes?, isRead]
  rfl

/-- An item is a label, or an instruction that takes as much room as the statement it asks for. -/
theorem Item.Calls.room
    {item : Item} {call : BuildCall}
    (callsItem : item.Calls call) :
    (item.bytes? = none ∧ ∃ name, call = .addLabel name) ∨
      ∃ bytes statement, item.bytes? = some bytes ∧ call = .emit statement ∧
        bytes.size = statement.fragment.bytes.size ∧
        ∀ size, addressFor size bytes = addressFor size statement.fragment.bytes := by
  cases callsItem with
  | label name => exact .inl ⟨rfl, name, rfl⟩
  | statement remark isRead =>
      exact .inr ⟨_, _, Item.bytes?_of_read isRead remark, rfl, rfl, fun _ => rfl⟩
  | native remark isRead index =>
      exact .inr ⟨_, _, Item.bytes?_of_read isRead remark, rfl, rfl,
        addressFor_fragment_congr rfl rfl⟩

/-! ## Addresses in a session -/

theorem sizeAfterItems_append (size : Nat) (items others : List Item) :
    sizeAfterItems size (items ++ others) = sizeAfterItems (sizeAfterItems size items) others := by
  simp only [sizeAfterItems, List.filterMap_append, List.foldl_append]

section Session

variable {builder last : Builder} {steps others : List BuildStep} {functions : List Function}
    {function : Function} {items : List Item} {index : Nat}

theorem size_code_afterPlacing (builder : Builder) (opened : OpenFunction) (fragment : Fragment) :
    (builder.afterPlacing opened fragment).code.size =
      addressFor builder.code.size fragment.bytes + fragment.bytes.size := by
  simp only [afterPlacing, addressFor, Array.size_append]

/-- The code grows by the items that are assembled. -/
theorem size_code_of_stepsOf
    (stepsOf : StepsOf items steps)
    (run : Steps builder steps last) :
    last.code.size = sizeAfterItems builder.code.size items := by
  induction stepsOf generalizing builder with
  | nil =>
      cases run
      rfl
  | @cons item step _ _ calls _ ih =>
      obtain ⟨call, answer⟩ := step
      cases run with
      | cons step run =>
          rw [ih run]
          rcases calls.room with ⟨noBytes, name, isLabel⟩ |
            ⟨bytes, statement, isBytes, isEmit, sameSize, samePlace⟩
          · cases isLabel
            cases step
            simp only [sizeAfterItems, List.filterMap_cons, noBytes]
          · cases isEmit
            cases step
            simp only [sizeAfterItems, List.filterMap_cons, isBytes, List.foldl_cons,
              size_code_afterPlacing, sameSize, samePlace]

/-- The items up to the end of a function begin at the address of the next instruction. -/
theorem addressAfter_of_stepsOf
    (stepsOf : StepsOf items steps)
    {stop : Nat}
    (run : Steps builder (steps ++ (.endFunction, stop) :: others) last) :
    addressAfter (steps ++ (.endFunction, stop) :: others) = nextPlace builder.code.size items ∧
      startAfter builder.code.size (steps ++ (.endFunction, stop) :: others) =
        nextPlace builder.code.size items := by
  induction stepsOf generalizing builder with
  | nil =>
      cases run with
      | cons step run =>
          cases step
          exact ⟨rfl, rfl⟩
  | @cons item step _ _ calls _ ih =>
      obtain ⟨call, answer⟩ := step
      cases run with
      | cons step run =>
          have later := ih run
          rcases calls.room with ⟨noBytes, name, isLabel⟩ |
            ⟨bytes, statement, isBytes, isEmit, sameSize, samePlace⟩
          · cases isLabel
            cases step
            simp only [nextPlace, List.filterMap_cons, noBytes]
            exact later
          · cases isEmit
            cases step
            simp [nextPlace, isBytes, samePlace, addressAfter, startAfter]

theorem openAfter_of_stepsOf
    (stepsOf : StepsOf items steps)
    (opened : Option String) :
    openAfter opened steps = opened := by
  induction stepsOf with
  | nil => rfl
  | @cons item step _ _ calls _ ih =>
      obtain ⟨call, answer⟩ := step
      cases calls <;> exact ih

/-- A session of functions grows the code by their items and leaves no function open. -/
theorem SessionOf.after
    (session : SessionOf functions steps)
    (run : Steps builder steps last) :
    last.code.size = sizeAfterItems builder.code.size (functions.flatMap Function.items) ∧
      openAfter none steps = none := by
  induction session generalizing builder with
  | nil =>
      cases run
      exact ⟨rfl, rfl⟩
  | cons start stop stepsOf _ ih =>
      cases run with
      | cons begun run =>
          obtain ⟨middle, first, second⟩ := run.divide
          have middleSize := size_code_of_stepsOf stepsOf first
          cases second with
          | cons ended run =>
              obtain ⟨size, isOpen⟩ := ih run
              cases begun
              cases ended
              refine ⟨?_, ?_⟩
              · rw [size, List.flatMap_cons, sizeAfterItems_append]
                exact congrArg (sizeAfterItems · _) middleSize
              · rw [openAfter, openAfter_append, openAfter_of_stepsOf stepsOf]
                exact isOpen

/-- The steps of a function in a session. -/
theorem SessionOf.exists_function
    (session : SessionOf functions steps)
    (isFunction : functions[index]? = some function) :
    ∃ before start itemSteps stop after,
      steps = before ++ (.beginFunction function.name, start) ::
        (itemSteps ++ (.endFunction, stop) :: after) ∧
      SessionOf (functions.take index) before ∧ StepsOf function.items itemSteps := by
  induction session generalizing index with
  | nil => cases isFunction
  | @cons head functions itemSteps others start stop stepsOf session ih =>
      cases index with
      | zero =>
          cases isFunction
          exact ⟨[], start, itemSteps, stop, others, rfl, .nil, stepsOf⟩
      | succ index =>
          obtain ⟨before, nextStart, nextSteps, nextStop, after, rfl, earlier, isSteps⟩ :=
            ih isFunction
          exact ⟨_, nextStart, nextSteps, nextStop, after, by simp,
            .cons start stop stepsOf earlier, isSteps⟩

/-- The step of an item in a session stands in the function and at the address of the item. -/
theorem SessionOf.exists_item
    (session : SessionOf functions steps)
    (run : Steps {} steps builder)
    {place : Nat} {item : Item}
    (isItem : item? functions place index = some item) :
    ∃ function before call answer after, functions[place]? = some function ∧
      steps = before ++ (call, answer) :: after ∧ item.Calls call ∧
      openAfter none before = some function.name ∧
      addressAfter ((call, answer) :: after) = address functions place index := by
  obtain ⟨function, isFunction, inFunction⟩ := Option.bind_eq_some_iff.mp isItem
  obtain ⟨before, start, itemSteps, stop, after, rfl, earlier, stepsOf⟩ :=
    session.exists_function isFunction
  -- The steps of the function are divided where its items are.
  have stepsBefore := List.forall₂_take index stepsOf
  have stepsFrom := List.forall₂_drop index stepsOf
  have isFrom : function.items.drop index = item :: function.items.drop (index + 1) := by
    rw [List.drop_eq_getElem?_toList_append, inFunction]
    rfl
  obtain ⟨⟨call, answer⟩, later, callsItem, -, isSteps⟩ :=
    List.forall₂_cons_left_iff.mp (isFrom ▸ stepsFrom)
  have divided := List.take_append_drop index itemSteps
  rw [isSteps] at divided stepsFrom
  generalize itemSteps.take index = earlierSteps at stepsBefore divided
  subst divided
  obtain ⟨middle, first, second⟩ := run.divide
  cases second with
  | cons begun inside =>
      rw [List.append_assoc] at inside
      obtain ⟨here, passed, following⟩ := inside.divide
      have size := size_code_of_stepsOf stepsBefore passed
      cases begun
      refine ⟨function,
        before ++ (.beginFunction function.name, middle.code.size) :: earlierSteps, call, answer,
        later ++ (.endFunction, stop) :: after, isFunction, by simp, callsItem, ?_, ?_⟩
      · rw [openAfter_append, (earlier.after first).2, openAfter]
        exact openAfter_of_stepsOf stepsBefore _
      · rw [← List.cons_append, (addressAfter_of_stepsOf stepsFrom following).1, size,
          (earlier.after first).1, ← sizeAfterItems_append]
        simp [address, itemsFrom, itemsBefore, isFunction]

/-- A function in a session begins at the address of its first item. -/
theorem SessionOf.exists_beginFunction
    (session : SessionOf functions steps)
    (run : Steps {} steps builder)
    (isFunction : functions[index]? = some function) :
    ∃ before length after, steps = before ++ (.beginFunction function.name, length) :: after ∧
      startAfter length after = address functions index 0 := by
  obtain ⟨before, start, itemSteps, stop, after, rfl, earlier, stepsOf⟩ :=
    session.exists_function isFunction
  obtain ⟨middle, first, second⟩ := run.divide
  cases second with
  | cons begun run =>
      cases begun
      refine ⟨before, _, _, rfl, ?_⟩
      rw [(addressAfter_of_stepsOf stepsOf run).2]
      simp [address, itemsFrom, itemsBefore, isFunction, (earlier.after first).1]

end Session

/-! ## Writing items -/

/-- An open arena that items were written to. -/
def ItemsIn (items : List Item) (arena : Arena) : Prop :=
  ∃ lines pending, arena.Holds lines pending ∧ (∀ line ∈ lines, line.2.Encodable) ∧
    List.Forall₂ Item.Calls items
      (lines.flatMap Line.calls ++ pending.map BuildCall.addLabel)

/-- A function of a code unit that a listed function was written to. -/
structure Function.WrittenTo (function : Function) (code : FunctionCode) : Prop where
  name : code.name = function.name
  lines : ∃ lines, code.HasLines lines ∧ (∀ line ∈ lines, line.2.Encodable) ∧
    List.Forall₂ Item.Calls function.items
      (lines.flatMap Line.calls ++ code.arena.trailing.map BuildCall.addLabel)

namespace ItemsIn

variable {items : List Item} {arena : Arena}

theorem empty : ItemsIn [] {} :=
  ⟨[], [], .empty, by simp, .nil⟩

theorem addLabel (itemsIn : ItemsIn items arena) (name : String) :
    ItemsIn (items ++ [.label name]) (arena.addLabel name) := by
  obtain ⟨lines, pending, holds, encodable, calls⟩ := itemsIn
  refine ⟨lines, pending ++ [name], holds.addLabel name, encodable, ?_⟩
  rw [List.map_append, ← List.append_assoc]
  exact List.rel_append calls (.cons (.label name) .nil)

theorem push
    (itemsIn : ItemsIn items arena)
    {item : Item} {statement : Statement}
    (callsItem : item.Calls (.emit statement))
    (encodable : statement.Encodable) :
    ItemsIn (items ++ [item])
      (arena.push ⟨statement.fragment.bytes, statement.fragment.references, []⟩).2 := by
  obtain ⟨lines, pending, holds, allEncodable, calls⟩ := itemsIn
  refine ⟨lines ++ [(pending, statement)], [], holds.push statement, ?_, ?_⟩
  · rw [List.forall_mem_append, List.forall_mem_singleton]
    exact ⟨allEncodable, encodable⟩
  · rw [List.flatMap_append, List.flatMap_singleton, Line.calls, ← List.append_assoc,
      List.map_nil, List.append_nil]
    exact List.rel_append calls (.cons callsItem .nil)

theorem close
    {function : Function}
    (itemsIn : ItemsIn function.items arena) :
    function.WrittenTo ⟨function.name, arena.close⟩ := by
  obtain ⟨lines, pending, holds, encodable, calls⟩ := itemsIn
  have follows := holds.follows_close function.name
  exact ⟨rfl, lines, follows.hasLines, encodable, by rwa [follows.trailing]⟩

end ItemsIn

/-- An action that succeeds after another one. -/
theorem exists_of_bind_eq_ok_state
    {α β : Type} {first : UnitM α} {next : α → UnitM β} {codeUnit last : CodeUnit} {answer : β}
    (ran : (first >>= next) codeUnit = .ok answer last) :
    ∃ value middle, first codeUnit = .ok value middle ∧ next value middle = .ok answer last := by
  simp only [Bind.bind, EStateM.bind] at ran
  cases result : first codeUnit with
  | ok value middle =>
      rw [result] at ran
      exact ⟨value, middle, rfl, ran⟩
  | error error middle =>
      rw [result] at ran
      cases ran

/-- A unit in which a function is being written, with the items that were written to it after other
functions. -/
structure WritesItems (finished : Array FunctionCode) (name : String) (items : List Item)
    (codeUnit : CodeUnit) : Prop where
  finished : codeUnit.finished = finished
  isOpen : ∃ arena, codeUnit.current = some ⟨name, arena⟩ ∧ ItemsIn items arena

section Writing

variable {codeUnit next : CodeUnit} {finished : Array FunctionCode} {name : String}
  {items : List Item}

/-- Looking up a native does not touch the functions. -/
theorem functions_of_nativeIndex
    {hash : UInt64} {index : UInt16}
    (ran : CodeUnit.nativeIndex hash codeUnit = .ok index next) :
    next.finished = codeUnit.finished ∧ next.current = codeUnit.current := by
  rcases codeUnit.nativeIndex_outcomes hash with ⟨_, -, found⟩ | ⟨-, -, added⟩ | ⟨-, -, refused⟩
  · cases found.symm.trans ran
    exact ⟨rfl, rfl⟩
  · cases added.symm.trans ran
    exact ⟨rfl, rfl⟩
  · cases refused.symm.trans ran

theorem finished_of_forM_nativeIndex
    {hashes : List UInt64}
    (ran : (hashes.forM fun hash => do let _ ← CodeUnit.nativeIndex hash) codeUnit = .ok () next) :
    next.finished = codeUnit.finished := by
  induction hashes generalizing codeUnit with
  | nil =>
      cases ran
      rfl
  | cons hash hashes ih =>
      obtain ⟨_, middle, looked, later⟩ := exists_of_bind_eq_ok_state ran
      obtain ⟨index, known, found, done⟩ := exists_of_bind_eq_ok_state looked
      cases done
      rw [ih later, (functions_of_nativeIndex found).1]

variable (writes : WritesItems finished name items codeUnit)

include writes

theorem WritesItems.emit
    {item : Item} {statement : Statement}
    (callsItem : item.Calls (.emit statement))
    (emittable : statement.Emittable)
    {handle : Handle}
    (ran : CodeUnit.emit statement codeUnit = .ok handle next) :
    WritesItems finished name (items ++ [item]) next := by
  obtain ⟨isFinished, arena, current, itemsIn⟩ := writes
  rcases codeUnit.emit_outcomes statement with
    ⟨-, failed⟩ | ⟨-, failed⟩ | ⟨function, _, isOpen, fewCases, emitted⟩
  · cases failed.symm.trans ran
  · cases failed.symm.trans ran
  · cases current.symm.trans isOpen
    cases emitted.symm.trans ran
    exact ⟨isFinished, _, rfl, itemsIn.push callsItem ⟨emittable, fewCases⟩⟩

theorem WritesItems.label
    {label : String}
    (ran : CodeUnit.label label codeUnit = .ok () next) :
    WritesItems finished name (items ++ [.label label]) next := by
  obtain ⟨isFinished, arena, current, itemsIn⟩ := writes
  rcases codeUnit.label_outcomes label with ⟨_, failed⟩ | ⟨function, isOpen, -, -, placed⟩
  · cases failed.symm.trans ran
  · cases current.symm.trans isOpen
    cases placed.symm.trans ran
    exact ⟨isFinished, _, rfl, itemsIn.addLabel label⟩

/-- Writing an item that succeeds adds it to the open function. -/
theorem WritesItems.writeItem
    {item : Item}
    (ran : Listing.writeItem item codeUnit = .ok () next) :
    WritesItems finished name (items ++ [item]) next := by
  cases item with
  | label label => exact writes.label ran
  | instruction remark mnemonic operands =>
      unfold Listing.writeItem at ran
      cases isRead : readInstruction mnemonic operands with
      | error error =>
          simp only [isRead] at ran
          cases ran
      | ok order =>
          simp only [isRead] at ran
          have readable := readInstruction_readable isRead
          cases order with
          | statement statement =>
              obtain ⟨handle, middle, emitted, done⟩ := exists_of_bind_eq_ok_state ran
              cases done
              exact writes.emit (.statement remark isRead) readable.1 emitted
          | native parameters returns hash =>
              obtain ⟨handle, middle, called, done⟩ := exists_of_bind_eq_ok_state ran
              cases done
              obtain ⟨index, known, found, emitted⟩ := exists_of_bind_eq_ok_state called
              obtain ⟨sameFunctions, sameCurrent⟩ := functions_of_nativeIndex found
              have knownWrites : WritesItems finished name items known :=
                ⟨sameFunctions.trans writes.finished, by rw [sameCurrent]; exact writes.isOpen⟩
              exact knownWrites.emit (.native remark isRead index)
                (Statement.native_emittable parameters returns index) emitted

theorem WritesItems.writeItems
    {function : String} {index : Nat} {others : List Item}
    (ran : Listing.writeItems function index others codeUnit = .ok () next) :
    WritesItems finished name (items ++ others) next := by
  induction others generalizing codeUnit index items with
  | nil =>
      cases ran
      rwa [List.append_nil]
  | cons item others ih =>
      unfold Listing.writeItems at ran
      split at ran
      · rename_i middle wrote
        rw [List.append_cons]
        exact ih (writes.writeItem wrote) ran
      · cases ran

omit writes

/-- Writing a function that succeeds adds a function with its items. -/
theorem exists_of_writeFunction
    {function : Function}
    (ran : writeFunction function codeUnit = .ok () next) :
    ∃ code, function.WrittenTo code ∧ next.finished = codeUnit.finished.push code ∧
      next.current = none := by
  obtain ⟨_, begun, began, later⟩ := exists_of_bind_eq_ok_state ran
  obtain ⟨_, written, wrote, ended⟩ := exists_of_bind_eq_ok_state later
  have begunWrites : WritesItems codeUnit.finished function.name [] begun := by
    rcases codeUnit.beginFunction_outcomes function.name with ⟨_, failed⟩ | ⟨-, -, begins⟩
    · cases failed.symm.trans began
    · cases begins.symm.trans began
      exact ⟨rfl, {}, rfl, .empty⟩
  obtain ⟨unitFunctions, current, natives, nativeIndices⟩ := written
  obtain ⟨rfl, arena, rfl, itemsIn⟩ := begunWrites.writeItems wrote
  cases ended
  exact ⟨_, ItemsIn.close itemsIn, rfl, rfl⟩

theorem forall₂_of_forM_writeFunction
    {written functions : List Function}
    (before : List.Forall₂ Function.WrittenTo written codeUnit.finished.toList)
    (ran : functions.forM writeFunction codeUnit = .ok () next) :
    List.Forall₂ Function.WrittenTo (written ++ functions) next.finished.toList := by
  induction functions generalizing codeUnit written with
  | nil =>
      cases ran
      rwa [List.append_nil]
  | cons function functions ih =>
      obtain ⟨_, middle, wrote, later⟩ := exists_of_bind_eq_ok_state ran
      obtain ⟨code, writtenTo, isFinished, -⟩ := exists_of_writeFunction wrote
      rw [List.append_cons]
      refine ih ?_ later
      rw [isFinished, Array.toList_push]
      exact List.rel_append before (.cons writtenTo .nil)

end Writing

/-! ## The session of a listing -/

/-- Functions that were written are placed by a session with one step for each of their items. -/
theorem exists_places
    {functions : List Function} {codes : List FunctionCode}
    (written : List.Forall₂ Function.WrittenTo functions codes) :
    ∃ calls, Places codes calls ∧
      ∀ steps : List BuildStep, steps.map Prod.fst = calls → SessionOf functions steps := by
  induction written with
  | nil =>
      refine ⟨[], .nil, fun steps isCalls => ?_⟩
      rw [List.map_eq_nil_iff.mp isCalls]
      exact .nil
  | @cons function code functions codes writtenTo _ ih =>
      obtain ⟨others, places, session⟩ := ih
      obtain ⟨lines, hasLines, encodable, calls⟩ := writtenTo.lines
      refine ⟨_, .cons hasLines encodable places, fun steps isCalls => ?_⟩
      have isCalls : steps.map Prod.fst = .beginFunction function.name ::
          (lines.flatMap Line.calls ++ code.arena.trailing.map BuildCall.addLabel ++
            .endFunction :: others) := by
        rw [isCalls, functionCalls, writtenTo.name]
        simp only [List.append_assoc, List.cons_append, List.nil_append]
      obtain ⟨⟨_, start⟩, rest, rfl, rfl, isRest⟩ := List.map_eq_cons_iff.mp isCalls
      obtain ⟨itemSteps, later, rfl, isItems, isLater⟩ := List.map_eq_append_iff.mp isRest
      obtain ⟨⟨_, stop⟩, otherSteps, rfl, rfl, isOthers⟩ := List.map_eq_cons_iff.mp isLater
      rw [← isItems, List.forall₂_map_right_iff] at calls
      exact .cons start stop calls (session otherSteps isOthers)

/-- The functions of a listing are written to those of a unit. -/
theorem forall₂_of_writeFunctions
    {natives : Array UInt64} {functions : List Function} {codeUnit : CodeUnit}
    (wrote : writeFunctions natives functions {} = .ok () codeUnit) :
    List.Forall₂ Function.WrittenTo functions codeUnit.finished.toList := by
  obtain ⟨_, middle, looked, written⟩ := exists_of_bind_eq_ok_state wrote
  have before : List.Forall₂ Function.WrittenTo [] middle.finished.toList := by
    rw [finished_of_forM_nativeIndex looked]
    exact .nil
  exact forall₂_of_forM_writeFunction before written

/-- The code of a listing that is assembled without fusing is linked from a session with one step
for each item. -/
theorem exists_session_of_assemble
    {listing : Listing} {script : Script}
    (assembled : listing.assemble false = .ok script) :
    ∃ steps builder linked, Finished steps builder linked ∧
      SessionOf listing.functions steps ∧ script.code = linked.pages.flatten := by
  obtain ⟨codeUnit, strings, code, wrote, -, finished, rfl⟩ := assemble_eq_ok_iff.mp assembled
  obtain ⟨calls, places, session⟩ := exists_places (forall₂_of_writeFunctions wrote)
  obtain ⟨steps, builder, linked, isFinished, isCalls, rfl⟩ :=
    CodeUnit.exists_finished finished places.placedBy
  exact ⟨steps, builder, linked, isFinished, session steps isCalls, rfl⟩

end Listing
end ScriptBytecode
