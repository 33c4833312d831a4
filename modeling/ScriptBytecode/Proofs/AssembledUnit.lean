import ScriptBytecode.Proofs.PlacedFunctions
import ScriptBytecode.Proofs.ListedInstructions
import ScriptBytecode.Proofs.UnitNatives
import ScriptBytecode.Listing.Assemble

/-!
# What assembling writes

The statements that are read from a listing have encodings, their name fields are those of names,
and the natives they call are in the table of the code unit.
-/

namespace ScriptBytecode

/-! ## Statements -/

/-- A statement whose instruction can be listed so that it is read back: its name field is that of
a name, and its native is in the table. -/
structure Statement.Listable (natives : Array UInt64) (statement : Statement) : Prop where
  name : ∀ parameters frameSize nameField,
    statement = .plain .enter (.enter parameters frameSize nameField) →
      ∃ name, nameField = Operands.nameFieldOf name
  native : ∀ counts index, statement = .plain .native (.native counts index) →
    index.toNat < natives.size

namespace Statement

variable {opcode : Opcode} {statement : Statement}

theorem Listable.mono
    {natives others : Array UInt64}
    (listable : statement.Listable natives)
    (more : natives.size ≤ others.size) :
    statement.Listable others :=
  ⟨listable.name, fun counts index isNative =>
    Nat.lt_of_lt_of_le (listable.native counts index isNative) more⟩

theorem Ordinary.listable
    (ordinary : statement.Ordinary)
    (natives : Array UInt64) :
    statement.Listable natives := by
  constructor
  · rintro parameters frameSize nameField rfl
    exact absurd rfl ordinary.1
  · rintro counts index rfl
    exact absurd rfl ordinary.2

/-- A statement that a listing can ask for. -/
def Readable (statement : Statement) : Prop :=
  statement.Emittable ∧ ∀ natives, statement.Listable natives

theorem readable_plain
    {operands : Operands}
    (layout : operands.layout = opcode.layout)
    (notEnter : operands.layout ≠ .enter)
    (notNative : operands.layout ≠ .native) :
    (plain opcode operands).Readable := by
  refine ⟨⟨layout, ?_⟩, fun natives => Ordinary.listable ?_ natives⟩
  · cases operands with
    | enter parameters frameSize nameField => exact absurd rfl notEnter
    | _ => exact Nat.zero_lt_succ _
  · exact ⟨layout ▸ notEnter, layout ▸ notNative⟩

theorem readable_enter (parameters : UInt8) (frameSize : UInt16) (name : Option String) :
    (enter parameters frameSize name).Readable := by
  refine ⟨⟨rfl, Operands.length_nameFieldOf name⟩, fun natives => ⟨?_, ?_⟩⟩
  · rintro _ _ _ ⟨⟩
    exact ⟨name, rfl⟩
  · rintro _ _ ⟨⟩

theorem readable_jump
    (layout : opcode.layout = .rel16)
    (label : String) :
    (jump opcode label).Readable := by
  refine ⟨⟨layout, Nat.zero_lt_succ _⟩, fun natives => ⟨?_, ?_⟩⟩
  · rintro _ _ _ ⟨⟩
  · rintro _ _ ⟨⟩

theorem readable_call (function : String) : (call function).Readable := by
  refine ⟨⟨trivial, Nat.zero_lt_succ _⟩, fun natives => ⟨?_, ?_⟩⟩
  · rintro _ _ _ ⟨⟩
  · rintro _ _ ⟨⟩

theorem readable_switch (cases : List (UInt32 × String)) : (switch cases).Readable := by
  refine ⟨⟨trivial, Nat.zero_lt_succ _⟩, fun natives => ⟨?_, ?_⟩⟩
  · rintro _ _ _ ⟨⟩
  · rintro _ _ ⟨⟩

end Statement

namespace Listing

variable {opcode : Opcode} {operands : List String} {order : Order} {texts : List String}

/-- Orders for statements that a listing can ask for. -/
def Order.Readable : Order → Prop
  | .statement other => other.Readable
  | .native _ _ _ => True

theorem readSwitch_readable
    {statement : Statement}
    (read : readSwitch operands = .ok statement) :
    statement.Readable := by
  obtain ⟨cases, -, later⟩ := exists_of_bind_eq_ok read
  split at later
  · obtain ⟨offsets, -, isStatement⟩ := exists_of_bind_eq_ok later
    cases isStatement
    exact Statement.readable_plain rfl nofun nofun
  · cases later
    exact Statement.readable_switch cases

/-- What the operands of an opcode can be read as. -/
inductive ReadAs (opcode : Opcode) (texts : List String) : Order → Prop
  | plain
      (operands : Operands)
      (layout : operands.layout = opcode.layout)
      (notEnter : operands.layout ≠ .enter)
      (notNative : operands.layout ≠ .native) :
      ReadAs opcode texts (.statement (.plain opcode operands))
  | enter
      (parameters : UInt8)
      (frameSize : UInt16)
      (name : Option String)
      (layout : opcode.layout = .enter) :
      ReadAs opcode texts (.statement (.enter parameters frameSize name))
  | native
      (parameters returns : UInt8)
      (hash : UInt64)
      (layout : opcode.layout = .native) :
      ReadAs opcode texts (.native parameters returns hash)
  | jump
      (label : String)
      (layout : opcode.layout = .rel16)
      (isText : texts = [label])
      (notInteger : Text.integer? label = none) :
      ReadAs opcode texts (.statement (.jump opcode label))
  | call
      (name : String)
      (isCall : opcode = .call)
      (isText : texts = [name])
      (notInteger : Text.integer? name = none) :
      ReadAs opcode texts (.statement (.call name))
  | switch
      (statement : Statement)
      (layout : opcode.layout = .switch)
      (isSwitch : readSwitch texts = .ok statement) :
      ReadAs opcode texts (.statement statement)

/-- Operands that are made of one value that was read. -/
theorem readAs_of_read
    {α : Type} {first : Except OperandFault α} {operands : α → Operands}
    (read : (first >>= fun value => pure (Order.statement (.plain opcode (operands value)))) =
      .ok order)
    (layout : ∀ value, (operands value).layout = opcode.layout)
    (notEnter : ∀ value, (operands value).layout ≠ .enter)
    (notNative : ∀ value, (operands value).layout ≠ .native) :
    ReadAs opcode texts order := by
  obtain ⟨value, -, isOrder⟩ := exists_of_bind_eq_ok read
  cases isOrder
  exact .plain _ (layout value) (notEnter value) (notNative value)

theorem readAs_of_readOperands
    (read : readOperands opcode operands = .ok order) :
    ReadAs opcode operands order := by
  unfold readOperands at read
  split at read
  case h_1 layout =>
      cases read
      exact .plain _ layout.symm nofun nofun
  case h_2 layout => exact readAs_of_read read (fun _ => layout.symm) nofun nofun
  case h_3 layout =>
      obtain ⟨first, -, later⟩ := exists_of_bind_eq_ok read
      exact readAs_of_read later (fun _ => layout.symm) nofun nofun
  case h_4 layout =>
      obtain ⟨first, -, later⟩ := exists_of_bind_eq_ok read
      obtain ⟨second, -, last⟩ := exists_of_bind_eq_ok later
      exact readAs_of_read last (fun _ => layout.symm) nofun nofun
  case h_5 layout => exact readAs_of_read read (fun _ => layout.symm) nofun nofun
  case h_6 layout => exact readAs_of_read read (fun _ => layout.symm) nofun nofun
  case h_7 layout =>
      split at read
      · rename_i isCall
        cases read
        exact .call _ isCall.1 rfl isCall.2
      · exact readAs_of_read read (fun _ => layout.symm) nofun nofun
  case h_8 layout => exact readAs_of_read read (fun _ => layout.symm) nofun nofun
  case h_9 layout => exact readAs_of_read read (fun _ => layout.symm) nofun nofun
  case h_10 layout =>
      split at read
      · rename_i notInteger
        cases read
        exact .jump _ layout rfl notInteger
      · exact readAs_of_read read (fun _ => layout.symm) nofun nofun
  case h_11 layout =>
      obtain ⟨parameters, -, later⟩ := exists_of_bind_eq_ok read
      obtain ⟨returns, -, last⟩ := exists_of_bind_eq_ok later
      obtain ⟨hash, -, isOrder⟩ := exists_of_bind_eq_ok last
      cases isOrder
      exact .native parameters returns hash layout
  case h_12 layout =>
      obtain ⟨parameters, -, later⟩ := exists_of_bind_eq_ok read
      obtain ⟨frameSize, -, isOrder⟩ := exists_of_bind_eq_ok later
      cases isOrder
      exact .enter parameters frameSize none layout
  case h_13 name layout =>
      obtain ⟨parameters, -, later⟩ := exists_of_bind_eq_ok read
      obtain ⟨frameSize, -, isOrder⟩ := exists_of_bind_eq_ok later
      cases isOrder
      exact .enter parameters frameSize (some name) layout
  case h_14 => cases read
  case h_15 layout =>
      obtain ⟨statement, isSwitch, isOrder⟩ := exists_of_bind_eq_ok read
      cases isOrder
      exact .switch statement layout isSwitch
  case h_16 => cases read

theorem ReadAs.readable
    (readAs : ReadAs opcode texts order) :
    order.Readable := by
  cases readAs with
  | plain operands layout notEnter notNative =>
      exact Statement.readable_plain layout notEnter notNative
  | enter parameters frameSize name layout =>
      exact Statement.readable_enter parameters frameSize name
  | native parameters returns hash layout => trivial
  | jump label layout isText notInteger => exact Statement.readable_jump layout label
  | call name isCall isText notInteger => exact Statement.readable_call name
  | switch statement layout isSwitch => exact readSwitch_readable isSwitch

theorem readInstruction_readable
    {mnemonic : String}
    (read : readInstruction mnemonic operands = .ok order) :
    order.Readable := by
  obtain ⟨opcode, -, later⟩ := exists_of_bind_eq_ok read
  split at later
  · rename_i found isRead
    cases later
    exact (readAs_of_readOperands isRead).readable
  · cases later

end Listing

/-! ## Code units -/

namespace CodeUnit

variable {α : Type}

/-- A code unit that knows its natives and whose statements can be listed. -/
structure Sound (codeUnit : CodeUnit) : Prop where
  indexed : codeUnit.Indexed
  satisfies : codeUnit.Satisfies (Statement.Listable codeUnit.natives)

/-- An action that keeps a code unit sound, whether it succeeds or fails. -/
def KeepsSound {α : Type} (action : UnitM α) : Prop :=
  ∀ codeUnit, codeUnit.Sound → (stateAfter (action codeUnit)).Sound

theorem sound_empty : Sound {} :=
  ⟨indexed_empty, by simp, by simp⟩

/-- A change that emits what a listing can ask for keeps a code unit sound. -/
theorem Sound.change
    {codeUnit next : CodeUnit}
    (sound : codeUnit.Sound)
    (change : Change Statement.Readable codeUnit next) :
    next.Sound := by
  have more : codeUnit.natives.size ≤ next.natives.size := by
    cases change with
    | addNative hash => simp [withNative]
    | beginFunction => exact Nat.le_refl _
    | label => exact Nat.le_refl _
    | emit => exact Nat.le_refl _
    | endFunction => exact Nat.le_refl _
  have satisfies : next.Satisfies (Statement.Listable codeUnit.natives) := by
    refine sound.satisfies.change change ?_
    rintro _ (readable | ⟨parameters, returns, known⟩)
    · exact ⟨readable.1, readable.2 _⟩
    · have isThere := (sound.indexed.indices _ _).mp known
      refine ⟨Statement.native_emittable parameters returns _, ?_, ?_⟩
      · rintro _ _ _ ⟨⟩
      · rintro _ _ ⟨⟩
        exact (Array.getElem?_eq_some_iff.mp isThere).1
  exact ⟨sound.indexed.change change,
    satisfies.mono fun statement listable => listable.mono more⟩

theorem keepsSound_of_changes
    {action : UnitM α}
    (changes : ∀ codeUnit, Changes Statement.Readable codeUnit (stateAfter (action codeUnit))) :
    KeepsSound action :=
  fun codeUnit sound => (changes codeUnit).keep Sound.change sound

theorem KeepsSound.bind
    {β : Type} {first : UnitM α} {next : α → UnitM β}
    (firstKeeps : KeepsSound first)
    (nextKeeps : ∀ answer, KeepsSound (next answer)) :
    KeepsSound (first >>= next) := by
  intro codeUnit sound
  have after := firstKeeps codeUnit sound
  simp only [Bind.bind, EStateM.bind]
  cases result : first codeUnit with
  | error error middle =>
      rw [result] at after
      exact after
  | ok answer middle =>
      rw [result] at after
      exact nextKeeps answer middle after

theorem keepsSound_pure (value : α) : KeepsSound (pure value : UnitM α) :=
  fun _ sound => sound

theorem keepsSound_forM
    {action : α → UnitM Unit}
    (keeps : ∀ element, KeepsSound (action element))
    (elements : List α) :
    KeepsSound (elements.forM action) := by
  induction elements with
  | nil => exact keepsSound_pure _
  | cons element elements ih =>
      exact (keeps element).bind fun _ => ih

end CodeUnit

namespace Listing

open CodeUnit

theorem keepsSound_writeOrder
    {order : Order}
    (readable : order.Readable) :
    KeepsSound (writeOrder order) := by
  cases order with
  | statement statement =>
      have keeps : KeepsSound (emit statement) :=
        keepsSound_of_changes fun _ => changes_emit (.statement readable)
      exact keeps.bind fun _ => keepsSound_pure _
  | native parameters returns hash =>
      have keeps : KeepsSound (native parameters returns hash) :=
        keepsSound_of_changes fun _ => changes_native parameters returns hash
      exact keeps.bind fun _ => keepsSound_pure _

theorem keepsSound_writeItem (item : Item) : KeepsSound (writeItem item) := by
  cases item with
  | label name => exact keepsSound_of_changes fun _ => changes_label name
  | instruction address mnemonic operands =>
      unfold writeItem
      cases read : readInstruction mnemonic operands with
      | ok order =>
          simp only [read]
          exact keepsSound_writeOrder (readInstruction_readable read)
      | error error =>
          simp only [read]
          exact fun _ sound => sound

theorem keepsSound_writeItems (function : String) (index : Nat) (items : List Item) :
    KeepsSound (writeItems function index items) := by
  induction items generalizing index with
  | nil => exact keepsSound_pure _
  | cons item items ih =>
      intro codeUnit sound
      have after := keepsSound_writeItem item codeUnit sound
      unfold writeItems
      cases result : writeItem item codeUnit with
      | error error next =>
          rw [result] at after
          exact after
      | ok answer next =>
          rw [result] at after
          exact ih (index + 1) next after

theorem keepsSound_writeFunction (function : Function) : KeepsSound (writeFunction function) :=
  (keepsSound_of_changes fun _ => changes_beginFunction _).bind fun _ =>
    (keepsSound_writeItems _ _ _).bind fun _ =>
      keepsSound_of_changes fun _ => changes_endFunction

/-- The unit that a listing is written to is sound. -/
theorem sound_writeFunctions
    {natives : Array UInt64} {functions : List Function} {codeUnit : CodeUnit}
    (wrote : writeFunctions natives functions {} = .ok () codeUnit) :
    codeUnit.Sound := by
  have keeps : KeepsSound (writeFunctions natives functions) :=
    (keepsSound_forM (fun hash =>
      (keepsSound_of_changes fun _ => changes_nativeIndex hash).bind fun _ =>
        keepsSound_pure _) _).bind fun _ => keepsSound_forM keepsSound_writeFunction _
  have sound := keeps {} sound_empty
  rwa [wrote] at sound

end Listing
end ScriptBytecode
