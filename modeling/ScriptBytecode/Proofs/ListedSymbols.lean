import ScriptBytecode.Proofs.SymbolErrors
import ScriptBytecode.Proofs.WalkedCode

/-!
# Names in listed scripts

A listed script shows the instructions of its code in order, divided into functions.  Every label
that a jump or switch names stands in the same function at the address that the jump or case leads
to, and every function that a call names stands at the address that is called.  Names are defined
once, so a listed script is assembled without an error about a name.
-/

namespace ScriptBytecode
namespace Listing

open Instruction (Consecutive codeOf jumpTarget switchCases)

variable {places : List (String × Nat)} {named : Bool} {item : Item} {texts : List String}

variable {functions : List Function} {natives : Array UInt64} {codeLength : Nat} {body : Body}
    {names : AddressTable String} {target : ReferenceKind × String} {instruction : Instruction}

/-! ## What items show -/

/-- Whether an item is an instruction. -/
def Item.isInstruction : Item → Bool
  | .label _ => false
  | .instruction _ _ _ => true

/-- The address of the first instruction of some items, or that after the items. -/
def nextAddress (stop : Nat) : List Item → Nat
  | [] => stop
  | .instruction (some address) _ _ :: _ => address
  | _ :: rest => nextAddress stop rest

/-- The labels of some items with the addresses they stand for: that of the next instruction, or
that after the items. -/
def labelPlaces (stop : Nat) : List Item → List (String × Nat)
  | [] => []
  | .label name :: rest => (name, nextAddress stop rest) :: labelPlaces stop rest
  | .instruction _ _ _ :: rest => labelPlaces stop rest

/-- An address that can have a label in a function: that of one of its instructions, or the end of
the code if the function reaches it. -/
def Body.HasPlace (body : Body) (codeLength address : Nat) : Prop :=
  address ∈ body.instructions.map Instruction.ip ∨ address = codeLength ∧ body.stop = codeLength

/-- An item that shows an instruction of a function.  Targets are shown as labels that stand for
them if all of them can have labels in the function, and called functions by name if there are
such functions. -/
inductive Item.Shows (functions : List Function) (natives : Array UInt64) (codeLength : Nat)
    (body : Body) (places : List (String × Nat)) : Item → Instruction → Prop
  | jump
      (ip : Nat)
      (opcode : Opcode)
      (offset : Int16)
      (placed : (labelName (jumpTarget ip offset), jumpTarget ip offset) ∈ places) :
      Shows functions natives codeLength body places
        (.instruction (some ip) opcode.mnemonic [labelName (jumpTarget ip offset)])
        ⟨ip, opcode, .rel16 offset⟩
  | jumpOffset
      (ip : Nat)
      (opcode : Opcode)
      (offset : Int16)
      (outside : ¬body.HasPlace codeLength (jumpTarget ip offset)) :
      Shows functions natives codeLength body places
        (.instruction (some ip) opcode.mnemonic [toString offset.toInt])
        ⟨ip, opcode, .rel16 offset⟩
  | switch
      (ip : Nat)
      (cases : List (UInt32 × Int16))
      (placed : ∀ target ∈ (⟨ip, .switch, .switch cases⟩ : Instruction).targets,
        (labelName target, target) ∈ places) :
      Shows functions natives codeLength body places
        (.instruction (some ip) Opcode.switch.mnemonic ((switchCases ip cases).map
          fun (_, value, _, target) => toString value.toNat ++ ":" ++ labelName target))
        ⟨ip, .switch, .switch cases⟩
  | switchOffsets
      (ip : Nat)
      (cases : List (UInt32 × Int16))
      (outside : ∃ target ∈ (⟨ip, .switch, .switch cases⟩ : Instruction).targets,
        ¬body.HasPlace codeLength target) :
      Shows functions natives codeLength body places
        (.instruction (some ip) Opcode.switch.mnemonic (cases.map
          fun (value, offset) => toString value.toNat ++ ":" ++ toString offset.toInt))
        ⟨ip, .switch, .switch cases⟩
  | call
      (ip : Nat)
      (value : UInt32)
      (function : Function)
      (member : function ∈ functions)
      (isTarget : function.address = value.toNat) :
      Shows functions natives codeLength body places
        (.instruction (some ip) Opcode.call.mnemonic [function.name]) ⟨ip, .call, .u24 value⟩
  | callAddress
      (ip : Nat)
      (value : UInt32)
      (noFunction : ∀ function ∈ functions, function.address ≠ value.toNat) :
      Shows functions natives codeLength body places
        (.instruction (some ip) Opcode.call.mnemonic ["0x" ++ Text.address value.toNat])
        ⟨ip, .call, .u24 value⟩
  | other
      (instruction : Instruction)
      (texts : List String)
      (notCall : instruction.opcode ≠ .call)
      (notJump : instruction.operands.layout ≠ .rel16)
      (notSwitch : instruction.operands.layout ≠ .switch)
      (isTexts : ∀ named names, operandTexts named names natives instruction = .ok texts) :
      Shows functions natives codeLength body places
        (.instruction (some instruction.ip) instruction.opcode.mnemonic texts) instruction

/-- A listed function that shows the instructions of a function in code. -/
structure Function.Shows (functions : List Function) (natives : Array UInt64) (codeLength : Nat)
    (function : Function) (body : Body) : Prop where
  address : function.address = body.start
  /-- Its instructions are those of the code, in order. -/
  items : List.Forall₂
    (Item.Shows functions natives codeLength body (labelPlaces body.stop function.items))
    (function.items.filter Item.isInstruction) body.instructions
  labels : function.labels.Nodup
  /-- Its labels are made of the addresses they stand for. -/
  labelNames : ∀ place ∈ labelPlaces body.stop function.items, place.1 = labelName place.2

/-- A listing in which every name of a script resolves. -/
structure SymbolsResolve (script : Script) (listing : Listing) : Prop where
  /-- The code can be read to its end. -/
  walked : (walk script.code).failure = none
  /-- The functions show the instructions of the code, in order. -/
  shows : ∃ bodies : List Body,
    bodies.flatMap Body.instructions = (walk script.code).instructions.toList ∧
      List.Forall₂ (Function.Shows listing.functions script.natives script.code.size)
        listing.functions bodies
  ascending : (listing.functions.map Function.address).Pairwise (· < ·)
  /-- The first function stands at the start of the code; empty code has no function. -/
  first : listing.functions.head?.map Function.address =
    if script.code.isEmpty then none else some 0
  names : (listing.functions.map Function.name).Nodup
  /-- Assembling the listing fails with no error about a name, fused or not. -/
  assembles : ∀ fuse error, listing.assemble fuse = .error error → ¬error.Symbolic

/-! ## Names that items use -/

/-- What the operands of a listed instruction can name. -/
theorem Item.mem_targets_cases
    {address : Option Nat} {opcode : Opcode}
    (isTarget : target ∈ Item.targets (.instruction address opcode.mnemonic texts)) :
    (∃ label, opcode.layout = .rel16 ∧ texts = [label] ∧ Text.integer? label = none ∧
        target = (.relative, label)) ∨
      (∃ name, opcode = .call ∧ texts = [name] ∧ Text.integer? name = none ∧
        target = (.absolute, name)) ∨
      ∃ statement, opcode.layout = .switch ∧ readSwitch texts = .ok statement ∧
        target ∈ statement.targets := by
  cases read : readOperands opcode texts with
  | error fault =>
      have failed : readInstruction opcode.mnemonic texts =
          .error (.malformed (.badOperands opcode.mnemonic texts fault)) := by
        rw [readInstruction, opcode.read_mnemonic]
        simp only [Bind.bind, Except.bind, read]
        rfl
      unfold Item.targets at isTarget
      simp only [failed] at isTarget
      cases isTarget
  | ok order =>
      rw [Item.targets_of_read (readInstruction_eq read)] at isTarget
      cases readAs_of_readOperands read with
      | plain operands layout notEnter notNative => cases isTarget
      | enter parameters frameSize name layout => cases isTarget
      | native parameters returns hash layout => cases isTarget
      | jump label layout isText notInteger =>
          exact .inl ⟨label, layout, isText, notInteger, List.mem_singleton.mp isTarget⟩
      | call name isCall isText notInteger =>
          exact .inr (.inl ⟨name, isCall, isText, notInteger, List.mem_singleton.mp isTarget⟩)
      | switch statement layout isSwitch =>
          exact .inr (.inr ⟨statement, layout, isSwitch, isTarget⟩)

/-- A switch names the labels of its cases. -/
theorem exists_case_of_mem_targets
    {cases : List (UInt32 × String)}
    (isTarget : target ∈ (Statement.switch cases).targets) :
    ∃ case ∈ cases, target = (.relative, case.2) := by
  simp only [Statement.targets, Statement.fragment, List.mem_map, List.mem_mapIdx] at isTarget
  obtain ⟨_, ⟨index, inCases, rfl⟩, rfl⟩ := isTarget
  exact ⟨cases[index], List.getElem_mem inCases, rfl⟩

/-- A listed instruction names only labels that have a place and functions that are listed. -/
theorem Item.Shows.target_cases
    (shows : Item.Shows functions natives codeLength body places item instruction)
    (wellFormed : instruction.WellFormed)
    (isTarget : target ∈ item.targets) :
    (∃ label ∈ places.map Prod.fst, target = (.relative, label)) ∨
      ∃ name ∈ functions.map Function.name, target = (.absolute, name) := by
  have layout := wellFormed.layout
  cases shows with
  | jump ip opcode offset placed =>
      rcases Item.mem_targets_cases isTarget with
        ⟨label, -, isText, -, rfl⟩ | ⟨name, rfl, -⟩ | ⟨statement, isSwitch, -⟩
      · cases isText
        exact .inl ⟨_, List.mem_map_of_mem placed, rfl⟩
      · cases layout
      · rw [isSwitch] at layout
        cases layout
  | jumpOffset ip opcode offset outside =>
      -- An offset reads as an integer, so it names no label.
      have notBelow := offset.le_toInt
      have notAbove := offset.toInt_lt
      have isInteger := Text.integer?_toString_int (show -2 ^ 63 < offset.toInt by omega) (by omega)
      rcases Item.mem_targets_cases isTarget with
        ⟨label, -, isText, notInteger, -⟩ | ⟨name, rfl, -⟩ | ⟨statement, isSwitch, -⟩
      · cases isText
        rw [isInteger] at notInteger
        cases notInteger
      · cases layout
      · rw [isSwitch] at layout
        cases layout
  | switch ip cases placed =>
      rcases Item.mem_targets_cases isTarget with
        ⟨label, isJump, -⟩ | ⟨name, isCall, -⟩ | ⟨statement, -, isSwitch, inSwitch⟩
      · cases isJump
      · cases isCall
      · have reads := readSwitch_labels ((switchCases ip cases).map
          fun (_, value, _, target) => (value, target))
        rw [List.map_map, List.map_map] at reads
        cases reads.symm.trans isSwitch
        obtain ⟨labelled, isLabelled, rfl⟩ := exists_case_of_mem_targets inSwitch
        obtain ⟨case, isCase, rfl⟩ := List.mem_map.mp isLabelled
        have isPlace := placed _ (List.mem_map_of_mem isCase)
        exact .inl ⟨_, List.mem_map_of_mem isPlace, rfl⟩
  | switchOffsets ip cases outside =>
      rcases Item.mem_targets_cases isTarget with
        ⟨label, isJump, -⟩ | ⟨name, isCall, -⟩ | ⟨statement, -, isSwitch, inSwitch⟩
      · cases isJump
      · cases isCall
      · have notEmpty : cases ≠ [] := by
          rintro rfl
          obtain ⟨_, isNone, _⟩ := outside
          cases isNone
        cases (readSwitch_offsets notEmpty).symm.trans isSwitch
        cases inSwitch
  | call ip value function member isStart =>
      -- A name that reads as an integer is read as an address and names no function.
      rcases Item.mem_targets_cases isTarget with
        ⟨label, isJump, -⟩ | ⟨name, -, isText, -, rfl⟩ | ⟨statement, isSwitch, -⟩
      · cases isJump
      · cases isText
        exact .inr ⟨_, List.mem_map_of_mem member, rfl⟩
      · cases isSwitch
  | callAddress ip value noFunction =>
      have bound := value.toNat_lt
      have isInteger : Text.integer? ("0x" ++ Text.address value.toNat) =
          some (value.toNat : Int) := Text.integer?_hex (by omega) 6
      rcases Item.mem_targets_cases isTarget with
        ⟨label, isJump, -⟩ | ⟨name, -, isText, notInteger, -⟩ | ⟨statement, isSwitch, -⟩
      · cases isJump
      · cases isText
        rw [isInteger] at notInteger
        cases notInteger
      · cases isSwitch
  | other instruction texts notCall notJump notSwitch isTexts =>
      rcases Item.mem_targets_cases isTarget with
        ⟨label, isJump, -⟩ | ⟨name, isCall, -⟩ | ⟨statement, isSwitch, -⟩
      · exact absurd (layout.trans isJump) notJump
      · exact absurd isCall notCall
      · exact absurd (layout.trans isSwitch) notSwitch

theorem map_fst_labelPlaces (stop : Nat) (items : List Item) :
    (labelPlaces stop items).map Prod.fst = items.filterMap Item.label? := by
  induction items with
  | nil => rfl
  | cons item rest ih =>
      cases item with
      | label name => exact congrArg (name :: ·) ih
      | instruction address mnemonic operands => exact ih

/-- Functions that show well-formed instructions and have different names define every name that
they use. -/
theorem namesDefined_of_shows
    {bodies : List Body}
    (shows : List.Forall₂ (Function.Shows functions natives codeLength) functions bodies)
    (wellFormed : ∀ body ∈ bodies, ∀ instruction ∈ body.instructions, instruction.WellFormed)
    (names : (functions.map Function.name).Nodup) :
    NamesDefined functions := by
  have targetCases : ∀ function ∈ functions, ∀ target ∈ function.targets,
      (∃ label ∈ function.labels, target = (.relative, label)) ∨
        ∃ name ∈ functions.map Function.name, target = (.absolute, name) := by
    intro function isFunction target isTarget
    obtain ⟨body, isBody, showsBody⟩ := exists_related_of_mem shows isFunction
    obtain ⟨item, isItem, inItem⟩ := List.mem_flatMap.mp isTarget
    have isInstruction : item ∈ function.items.filter Item.isInstruction := by
      refine List.mem_filter.mpr ⟨isItem, ?_⟩
      cases item with
      | label name => cases inItem
      | instruction address mnemonic operands => rfl
    obtain ⟨instruction, inBody, showsItem⟩ :=
      exists_related_of_mem showsBody.items isInstruction
    rw [Function.labels, ← map_fst_labelPlaces body.stop]
    exact showsItem.target_cases (wellFormed body isBody instruction inBody) inItem
  refine ⟨names, ?_, ?_, ?_, ?_⟩
  · intro function isFunction
    obtain ⟨body, -, showsBody⟩ := exists_related_of_mem shows isFunction
    exact showsBody.labels
  · intro function isFunction label isLabel
    obtain ⟨body, -, showsBody⟩ := exists_related_of_mem shows isFunction
    rw [Function.labels, ← map_fst_labelPlaces body.stop] at isLabel
    obtain ⟨place, isPlace, rfl⟩ := List.mem_map.mp isLabel
    rw [showsBody.labelNames place isPlace]
    exact labelName_isEmpty _
  · intro function isFunction label isTarget
    rcases targetCases function isFunction _ isTarget with ⟨_, known, ⟨⟩⟩ | ⟨_, _, ⟨⟩⟩
    exact known
  · intro function isFunction name isTarget
    rcases targetCases function isFunction _ isTarget with ⟨_, _, ⟨⟩⟩ | ⟨_, known, ⟨⟩⟩
    exact known

/-! ## Items of functions found in code -/

/-- The items that list instructions up to an address, with labels at the addresses that have
one. -/
inductive ListsAll (labels : AddressSet) (stop : Nat)
    (texts? : Instruction → Except Error (List String)) : List Instruction → List Item → Prop
  | nil : ListsAll labels stop texts? [] (Body.labelItem labels stop)
  | cons
      {instruction : Instruction}
      {texts : List String}
      {rest : List Instruction}
      {items : List Item}
      (isTexts : texts? instruction = .ok texts)
      (later : ListsAll labels stop texts? rest items) :
      ListsAll labels stop texts? (instruction :: rest)
        (Body.labelItem labels instruction.ip ++
          .instruction (some instruction.ip) instruction.opcode.mnemonic texts :: items)

namespace ListsAll

variable {labels : AddressSet} {stop : Nat} {texts? : Instruction → Except Error (List String)}
  {instructions : List Instruction} {items : List Item}

/-- Every listed instruction stands with its texts among the items. -/
theorem forall₂
    (lists : ListsAll labels stop texts? instructions items) :
    List.Forall₂ (fun instruction item => ∃ texts, texts? instruction = .ok texts ∧
        item = .instruction (some instruction.ip) instruction.opcode.mnemonic texts)
      instructions (items.filter Item.isInstruction) := by
  have noInstruction : ∀ address,
      (Body.labelItem labels address).filter Item.isInstruction = [] := by
    intro address
    unfold Body.labelItem
    split <;> rfl
  induction lists with
  | nil =>
      rw [noInstruction]
      exact .nil
  | cons isTexts later ih =>
      rw [List.filter_append, noInstruction, List.nil_append, List.filter_cons_of_pos rfl]
      exact .cons ⟨_, isTexts, rfl⟩ ih

/-- A label stands for the address it is made of. -/
theorem labelPlaces_eq
    (lists : ListsAll labels stop texts? instructions items) :
    labelPlaces stop items =
      ((instructions.map Instruction.ip ++ [stop]).filter labels.contains).map
        fun address => (labelName address, address) := by
  induction lists with
  | nil =>
      unfold Body.labelItem
      cases found : labels.contains stop <;> simp [found, labelPlaces, nextAddress]
  | @cons instruction texts rest items isTexts later ih =>
      unfold Body.labelItem
      cases found : labels.contains instruction.ip <;>
        simp [found, labelPlaces, nextAddress, ih]

end ListsAll

theorem exists_texts_of_listInstruction
    (isItem : listInstruction named names natives instruction = .ok item) :
    ∃ texts, operandTexts named names natives instruction = .ok texts ∧
      item = .instruction (some instruction.ip) instruction.opcode.mnemonic texts := by
  unfold listInstruction at isItem
  cases isTexts : operandTexts named names natives instruction with
  | error error =>
      rw [isTexts] at isItem
      cases isItem
  | ok texts =>
      rw [isTexts] at isItem
      cases isItem
      exact ⟨texts, rfl, rfl⟩

theorem Body.listsAll_of_items
    {items : List Item}
    (isItems : body.items codeLength names natives = .ok items) :
    ListsAll (body.labelSet codeLength) body.stop
      (fun instruction =>
        operandTexts (body.isNamed codeLength instruction) names natives instruction)
      body.instructions items := by
  obtain ⟨listed, isListed, isAll⟩ := exists_of_bind_eq_ok isItems
  cases isAll
  have eachListed := forall₂_of_mapM_eq_ok isListed
  clear isListed isItems
  generalize body.instructions = instructions at eachListed ⊢
  induction eachListed with
  | nil => exact .nil
  | cons isPart later ih =>
      obtain ⟨item, isItem, isPart⟩ := exists_of_bind_eq_ok isPart
      cases isPart
      obtain ⟨texts, isTexts, rfl⟩ := exists_texts_of_listInstruction isItem
      rw [List.flatten_cons, List.append_assoc, List.append_assoc]
      exact .cons isTexts ih

/-- An instruction of a function lies between its start and its end. -/
theorem Body.ip_bounds
    (consecutive : Consecutive body.start body.instructions)
    {address : Nat}
    (member : address ∈ body.instructions.map Instruction.ip) :
    body.start ≤ address ∧ address ≤ body.stop := by
  obtain ⟨instruction, isInstruction, rfl⟩ := List.mem_map.mp member
  obtain ⟨before, after, divided, place⟩ := consecutive.divide isInstruction
  rw [Body.stop_eq consecutive, divided, Instruction.codeOf_append, Array.size_append]
  omega

/-- A function whose instruction is listed without labels has no place for one of its targets. -/
theorem Body.exists_outside_of_not_isNamed
    (consecutive : Consecutive body.start body.instructions)
    (notNamed : body.isNamed codeLength instruction = false) :
    ∃ target ∈ instruction.targets, ¬body.HasPlace codeLength target := by
  obtain ⟨target, isTarget, notPlace⟩ := List.all_eq_false.mp notNamed
  refine ⟨target, isTarget, fun hasPlace => notPlace ?_⟩
  rw [Body.places, AddressSet.contains_ofList]
  rcases hasPlace with isAddress | ⟨rfl, isStop⟩
  · refine ⟨?_, Body.ip_bounds consecutive isAddress⟩
    split
    · exact List.mem_append_left _ isAddress
    · exact isAddress
  · rw [if_pos isStop]
    have early := Body.ip_bounds consecutive (List.mem_map_of_mem List.mem_cons_self)
    refine ⟨List.mem_append_right _ (List.mem_singleton_self _), ?_, Nat.le_of_eq isStop.symm⟩
    rw [← isStop]
    exact Nat.le_trans early.1 early.2

/-- A switch whose targets have no labels is listed with its offsets. -/
theorem operandTexts_switch_offsets
    (names : AddressTable String)
    (natives : Array UInt64)
    (ip : Nat)
    (opcode : Opcode)
    (cases : List (UInt32 × Int16)) :
    operandTexts false names natives ⟨ip, opcode, .switch cases⟩ =
      .ok (cases.map fun (value, offset) =>
        toString value.toNat ++ ":" ++ toString offset.toInt) := by
  conv_rhs => rw [← map_switchCases_offset ip cases, List.map_map]
  rfl

/-- The texts of an instruction show it, if names stand for the addresses of functions and labels
have places. -/
theorem Item.shows_of_operandTexts
    (isTexts : operandTexts named names natives instruction = .ok texts)
    (wellFormed : instruction.WellFormed)
    (known : ∀ address name, names.get? address = some name ↔
      ∃ function ∈ functions, function.address = address ∧ function.name = name)
    (placed : named = true → ∀ target ∈ instruction.targets, (labelName target, target) ∈ places)
    (outside : named = false →
      ∃ target ∈ instruction.targets, ¬body.HasPlace codeLength target) :
    Item.Shows functions natives codeLength body places
      (.instruction (some instruction.ip) instruction.opcode.mnemonic texts) instruction := by
  obtain ⟨ip, opcode, operands⟩ := instruction
  have layout := wellFormed.layout
  cases operands with
  | rel16 offset =>
      cases named with
      | true =>
          cases isTexts
          exact .jump ip opcode offset (placed rfl _ (List.mem_singleton_self _))
      | false =>
          cases isTexts
          obtain ⟨target, isTarget, noPlace⟩ := outside rfl
          obtain rfl := List.mem_singleton.mp isTarget
          exact .jumpOffset ip opcode offset noPlace
  | switch cases =>
      obtain rfl := Opcode.eq_of_layout_switch layout.symm
      cases named with
      | true =>
          cases isTexts
          exact .switch ip cases (placed rfl)
      | false =>
          rw [operandTexts_switch_offsets] at isTexts
          cases isTexts
          exact .switchOffsets ip cases (outside rfl)
  | u24 value =>
      by_cases isCall : opcode = .call
      · subst isCall
        simp only [operandTexts, if_true] at isTexts
        cases isTexts
        cases found : names.get? value.toNat with
        | some name =>
            obtain ⟨function, member, isTarget, rfl⟩ := (known _ _).mp found
            exact .call ip value function member isTarget
        | none =>
            refine .callAddress ip value fun function member isTarget => ?_
            rw [(known _ _).mpr ⟨function, member, isTarget, rfl⟩] at found
            cases found
      · refine .other _ texts isCall (by rintro ⟨⟩) (by rintro ⟨⟩) fun _ _ => ?_
        simpa only [operandTexts, isCall, if_false] using isTexts
  | _ =>
      refine .other _ texts ?_ (by rintro ⟨⟩) (by rintro ⟨⟩) fun _ _ => isTexts
      rintro rfl
      cases layout

/-- A function that is found in code is listed with the items of its instructions. -/
theorem Function.shows_of_items
    (known : ∀ address name, names.get? address = some name ↔
      ∃ function ∈ functions, function.address = address ∧ function.name = name)
    (consecutive : Consecutive body.start body.instructions)
    (wellFormed : ∀ instruction ∈ body.instructions, instruction.WellFormed)
    {function : Function}
    (address : function.address = body.start)
    (isItems : body.items codeLength names natives = .ok function.items) :
    Function.Shows functions natives codeLength function body := by
  have lists := Body.listsAll_of_items isItems
  have places := lists.labelPlaces_eq
  have placed : ∀ instruction ∈ body.instructions, body.isNamed codeLength instruction = true →
      ∀ target ∈ instruction.targets,
        (labelName target, target) ∈ labelPlaces body.stop function.items := by
    intro instruction member isNamed target isTarget
    obtain ⟨labelled, isPlace⟩ := Body.labelled_of_isNamed member isNamed isTarget
    rw [places]
    refine List.mem_map.mpr ⟨target, List.mem_filter.mpr ⟨?_, labelled⟩, rfl⟩
    rw [List.mem_append, List.mem_singleton]
    exact isPlace.imp_right And.left
  refine ⟨address, ?_, ?_, ?_⟩
  · have listed := (List.forall₂_and_left (p := (· ∈ body.instructions)) _ _).mpr
      ⟨fun _ member => member, lists.forall₂⟩
    refine (listed.imp ?_).flip
    rintro instruction item ⟨member, texts, isTexts, rfl⟩
    exact Item.shows_of_operandTexts isTexts (wellFormed instruction member) known
      (placed instruction member) (Body.exists_outside_of_not_isNamed consecutive)
  · rw [Function.labels, ← map_fst_labelPlaces body.stop, places, List.map_map]
    have nodup := (addresses_nodup consecutive).1
    rw [← Body.stop_eq consecutive] at nodup
    exact (nodup.filter _).map fun left right => labelName_injective
  · rw [places]
    intro place isPlace
    obtain ⟨address, -, rfl⟩ := List.mem_map.mp isPlace
    rfl

/-! ## Listed scripts -/

theorem exists_functionsOf_of_ofScript
    {script : Script} {listing : Listing}
    (isListed : ofScript script = .ok listing) :
    ∃ instructions, walk script.code = ⟨instructions, none⟩ ∧
      functionsOf script.code.size script.natives instructions = .ok listing.functions := by
  unfold ofScript at isListed
  simp only at isListed
  split at isListed
  · cases isListed
  · rename_i instructions walked
    obtain ⟨functions, isFunctions, isListing⟩ := exists_of_bind_eq_ok isListed
    cases isListing
    exact ⟨instructions, walked, isFunctions⟩

/-- Listed functions with the names, addresses and items of functions found in code. -/
def ListedFrom (codeLength : Nat) (natives : Array UInt64) (bodies : List Body)
    (functions : List Function) : Prop :=
  List.Forall₂
    (fun (named : NamedBody) (function : Function) =>
      function.name = named.name ∧ function.address = named.body.start ∧
        named.body.items codeLength (functionNames codeLength (nameBodies bodies)) natives =
          .ok function.items)
    (nameBodies bodies).toList functions

theorem listedFrom_of_functionsOf
    {instructions : Array Instruction}
    (isListed : functionsOf codeLength natives instructions = .ok functions) :
    ListedFrom codeLength natives (Body.divide instructions) functions := by
  refine (forall₂_of_mapM_eq_ok isListed).imp fun named function isFunction => ?_
  obtain ⟨items, isItems, isFunction⟩ := exists_of_bind_eq_ok isFunction
  cases isFunction
  exact ⟨rfl, rfl, isItems⟩

namespace ListedFrom

variable {codeLength : Nat} {natives : Array UInt64} {bodies : List Body}
  {functions : List Function}

variable (listed : ListedFrom codeLength natives bodies functions)

include listed

theorem map_eq :
    functions.map (fun function => (function.address, function.name)) =
      (nameBodies bodies).toList.map fun named => (named.body.start, named.name) := by
  rw [← List.forall₂_eq_eq_eq, List.forall₂_map_left_iff, List.forall₂_map_right_iff]
  refine (listed.imp ?_).flip
  rintro named function ⟨sameName, sameStart, -⟩
  exact Prod.ext sameStart sameName

theorem map_address :
    functions.map Function.address = bodies.map Body.start := by
  have sameStarts := congrArg (List.map Prod.fst) listed.map_eq
  simp only [List.map_map, Function.comp_def] at sameStarts
  conv_rhs => rw [← map_body_nameBodies bodies]
  rw [sameStarts, List.map_map]
  rfl

theorem names_nodup
    (adjacent : Adjacent 0 bodies) :
    (functions.map Function.name).Nodup := by
  have sameNames := congrArg (List.map Prod.snd) listed.map_eq
  simp only [List.map_map, Function.comp_def] at sameNames
  rw [sameNames]
  exact Listing.names_nodup adjacent.starts_nodup

/-- The table of names has the listed functions. -/
theorem get?_functionNames_iff
    (adjacent : Adjacent 0 bodies)
    (isLength : (codeOf (bodies.flatMap Body.instructions)).size = codeLength)
    (address : Nat)
    (name : String) :
    (functionNames codeLength (nameBodies bodies)).get? address = some name ↔
      ∃ function ∈ functions, function.address = address ∧ function.name = name := by
  have listedPlace : (∃ function ∈ functions, function.address = address ∧ function.name = name) ↔
      (address, name) ∈ functions.map fun function => (function.address, function.name) := by
    simp
  rw [← isLength, Listing.get?_functionNames_iff adjacent, listedPlace, listed.map_eq]
  simp

/-- Listed functions show the instructions of the functions that they are listed from. -/
theorem shows
    (adjacent : Adjacent 0 bodies)
    (isLength : (codeOf (bodies.flatMap Body.instructions)).size = codeLength)
    (wellFormed : ∀ body ∈ bodies, ∀ instruction ∈ body.instructions, instruction.WellFormed) :
    List.Forall₂ (Function.Shows functions natives codeLength) functions bodies := by
  have known := listed.get?_functionNames_iff adjacent isLength
  have showsNamed : List.Forall₂
      (fun named function => Function.Shows functions natives codeLength function named.body)
      (nameBodies bodies).toList functions := by
    have members := (List.forall₂_and_left (p := (· ∈ (nameBodies bodies).toList)) _ _).mpr
      ⟨fun _ member => member, listed⟩
    refine members.imp ?_
    rintro named function ⟨member, -, address, isItems⟩
    have isBody : named.body ∈ bodies := by
      rw [← map_body_nameBodies bodies]
      exact List.mem_map_of_mem member
    exact Function.shows_of_items known (adjacent.consecutive isBody) (wellFormed _ isBody)
      address isItems
  have flipped := List.forall₂_map_right_iff.mpr showsNamed.flip
  rwa [map_body_nameBodies] at flipped

end ListedFrom

/-- Every name in a listed script resolves: the functions show the instructions of the code in
order, labels and function names stand for the addresses that they are used for, and assembling the
listing fails with no error about a name. -/
theorem symbolsResolve_of_ofScript
    {script : Script} {listing : Listing}
    (isListed : ofScript script = .ok listing) :
    SymbolsResolve script listing := by
  obtain ⟨instructions, walked, isFunctions⟩ := exists_functionsOf_of_ofScript isListed
  obtain ⟨consecutive, allWellFormed, isCode⟩ := of_walk walked
  have kept := Body.flatMap_divide instructions
  have listed := listedFrom_of_functionsOf isFunctions
  generalize Body.divide instructions = bodies at kept listed
  rw [← kept] at consecutive allWellFormed isCode
  have adjacent := adjacent_of_consecutive consecutive
  have wellFormed : ∀ body ∈ bodies, ∀ instruction ∈ body.instructions,
      instruction.WellFormed := fun body isBody instruction inBody =>
    allWellFormed instruction (List.mem_flatMap.mpr ⟨body, isBody, inBody⟩)
  have names := listed.names_nodup adjacent
  have shows := listed.shows adjacent (congrArg Array.size isCode) wellFormed
  refine ⟨by rw [walked], ⟨bodies, by rw [walked, kept], shows⟩, ?_, ?_, names, ?_⟩
  · rw [listed.map_address]
    exact adjacent.starts_ascending
  · rw [← List.head?_map, listed.map_address, ← isCode]
    cases bodies with
    | nil => rfl
    | cons body rest =>
        have positive := adjacent.start_lt_stop List.mem_cons_self
        have inCode := (adjacent.bounds List.mem_cons_self).2
        rw [if_neg (by rw [Array.isEmpty_iff_size_eq_zero]; omega)]
        exact congrArg some adjacent.1
  · intro fuse error
    exact (namesDefined_of_shows shows wellFormed names).not_symbolic_of_assemble

/-- A script whose two functions claim one name.  It has jumps to an instruction, into one and to
the end of the code, and calls of a function and of an address inside of one. -/
def loopScript : Script where
  codePages := .ofArray (codeOf
    [⟨0, .enter, .enter 0 2 (Operands.nameFieldOf (some "loop"))⟩, ⟨10, .j, .rel16 (-3)⟩,
      ⟨13, .jz, .rel16 1⟩, ⟨16, .call, .u24 24⟩, ⟨20, .call, .u24 5⟩,
      ⟨24, .enter, .enter 0 2 (Operands.nameFieldOf (some "loop"))⟩,
      ⟨34, .switch, .switch [(7, -8), (9, 3)]⟩, ⟨48, .j, .rel16 0⟩])

/-- The functions that are listed for it. -/
def loopFunctions : List Function :=
  [⟨"loop", 0,
    [.instruction (some 0) "ENTER" ["0", "2", "loop"], .label "loc_00000A",
      .instruction (some 10) "J" ["loc_00000A"], .instruction (some 13) "JZ" ["1"],
      .instruction (some 16) "CALL" ["func_000018"], .instruction (some 20) "CALL" ["0x000005"]]⟩,
    ⟨"func_000018", 24,
    [.instruction (some 24) "ENTER" ["0", "2", "loop"], .label "loc_000022",
      .instruction (some 34) "SWITCH" ["7:loc_000022", "9:loc_000033"],
      .instruction (some 48) "J" ["loc_000033"], .label "loc_000033"]⟩]

theorem symbolsResolve_of_ofScript_loopScript :
    ∃ listing, ofScript loopScript = .ok listing ∧ listing.functions = loopFunctions ∧
      SymbolsResolve loopScript listing := by
  have known : (ofScript loopScript).toOption.map Listing.functions = some loopFunctions := by
    decide +kernel
  obtain ⟨listing, isListed, functions⟩ := Option.map_eq_some_iff.mp known
  rw [toOption_eq_some_iff] at isListed
  exact ⟨listing, isListed, functions, symbolsResolve_of_ofScript isListed⟩

end Listing
end ScriptBytecode
