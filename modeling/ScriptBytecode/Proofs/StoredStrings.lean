import ScriptBytecode.Proofs.ListedStrings

/-!
# Stored strings

A string table only grows: what is stored stays where it is, and the ids that are known stay known.
The bytes of the segment are at every moment none or end in a zero, so a string that is stored next
begins behind a terminator or in zeros.  So a string that got an id is read back under this id, and
is found among the strings of the pages, whatever is stored after it.
-/

namespace ScriptBytecode

open Utf8 Script

theorem Utf8.size_encode (text : String) :
    (encode text).size = (encodeChars text.toList).length := by
  rw [← toList_encode, Array.length_toList]

/-! ## Bytes after a terminator -/

namespace Script

theorem goesOn_append (inString : Bool) (left right : List UInt8) :
    goesOn inString (left ++ right) = goesOn (goesOn inString left) right := by
  induction left generalizing inString with
  | nil => rfl
  | cons byte left ih => exact ih _

theorem goesOn_terminated (inString : Bool) (bytes : List UInt8) :
    goesOn inString (bytes ++ [0]) = false := by
  rw [goesOn_append]
  rfl

theorem goesOn_zeros (count : Nat) : goesOn false (List.replicate count 0) = false := by
  induction count with
  | zero => rfl
  | succ count ih => exact ih

/-- A string begins behind bytes that are terminated. -/
theorem length_mem_startsFrom
    {before : List UInt8}
    (terminated : goesOn false before = false)
    {bytes : List UInt8}
    (notEmpty : bytes ≠ []) :
    before.length ∈ startsFrom 0 false (before ++ bytes) := by
  obtain ⟨byte, rest, rfl⟩ := List.exists_cons_of_ne_nil notEmpty
  rw [startsFrom_append, terminated, Nat.zero_add, startsFrom]
  exact List.mem_append_right _ List.mem_cons_self

end Script

namespace StringTable

/-! ## Tables that grow -/

/-- A table that has all the bytes and all the ids of another one. -/
structure Extends (table next : StringTable) : Prop where
  data : ∃ more, next.data.toList = table.data.toList ++ more
  ids : ∀ text id, table.idOf? text = some id → next.idOf? text = some id

namespace Extends

variable {table middle next : StringTable}

theorem refl (table : StringTable) : Extends table table :=
  ⟨⟨[], (List.append_nil _).symm⟩, fun _ _ known => known⟩

theorem trans
    (first : Extends table middle)
    (second : Extends middle next) :
    Extends table next := by
  obtain ⟨⟨more, isMiddle⟩, idsMiddle⟩ := first
  obtain ⟨⟨further, isNext⟩, idsNext⟩ := second
  refine ⟨⟨more ++ further, ?_⟩, fun text id known => idsNext text id (idsMiddle text id known)⟩
  rw [isNext, isMiddle, List.append_assoc]

end Extends

/-- A string stands at an id, behind terminated bytes and with its own terminator in one page. -/
structure Holds (table : StringTable) (id : Nat) (text : String) : Prop where
  inPage : id % pageLength + (encode text).size < pageLength
  stands : ∃ before after,
    table.data.toList = before ++ (encodeChars text.toList ++ 0 :: after) ∧
      before.length = id ∧ goesOn false before = false

theorem Holds.extends
    {table next : StringTable} {id : Nat} {text : String}
    (holds : table.Holds id text)
    (extended : table.Extends next) :
    next.Holds id text := by
  obtain ⟨before, after, isData, isId, terminated⟩ := holds.stands
  obtain ⟨more, isMore⟩ := extended.data
  refine ⟨holds.inPage, before, after ++ more, ?_, isId, terminated⟩
  rw [isMore, isData]
  simp only [List.append_assoc, List.cons_append]

/-- A table whose segment is terminated and whose ids are those of stored strings. -/
structure Sound (table : StringTable) : Prop where
  terminated : goesOn false table.data.toList = false
  stored : ∀ text id, table.idOf? text = some id → table.Holds id text

theorem sound_empty : Sound {} :=
  ⟨rfl, fun _ _ known => by cases known⟩

/-! ## Storing a string -/

section Store

variable {table : StringTable} {offset : Nat} {text : String}

theorem toList_zeroExtend (data : Bytes) (size : Nat) :
    (zeroExtend data size).toList = data.toList ++ List.replicate (size - data.size) 0 := by
  rw [zeroExtend, Array.toList_append, Array.toList_replicate]

theorem toList_data_store (table : StringTable) (offset : Nat) (text : String) :
    (table.store offset text).data.toList =
      (zeroExtend table.data offset).toList ++ (encodeChars text.toList ++ [0]) := by
  simp [store, toList_encode]

/-- The string has the id that it had, or else the offset it is stored at. -/
theorem idOf?_store_self (table : StringTable) (offset : Nat) (text : String) :
    (table.store offset text).idOf? text = some ((table.idOf? text).getD offset) := by
  cases known : table.idOf? text with
  | none =>
      simp only [store, known, Option.isSome_none, Bool.false_eq_true, if_false, Option.getD_none]
      exact List.lookup_cons_self
  | some id =>
      simp only [store, known, Option.isSome_some, if_true, Option.getD_some]
      exact known

theorem idOf?_store_ne
    {other : String}
    (different : other ≠ text) :
    (table.store offset text).idOf? other = table.idOf? other := by
  unfold store
  split_ifs
  · rfl
  · simp only [idOf?, List.lookup_cons, beq_eq_false_iff_ne.mpr different]

theorem extends_store (table : StringTable) (offset : Nat) (text : String) :
    table.Extends (table.store offset text) := by
  constructor
  · refine ⟨List.replicate (offset - table.data.size) 0 ++ (encodeChars text.toList ++ [0]), ?_⟩
    rw [toList_data_store, toList_zeroExtend, List.append_assoc]
  · intro other id known
    by_cases same : other = text
    · subst same
      rw [idOf?_store_self, known, Option.getD_some]
    · rw [idOf?_store_ne same, known]

theorem Sound.goesOn_zeroExtend (sound : table.Sound) (size : Nat) :
    goesOn false (zeroExtend table.data size).toList = false := by
  rw [toList_zeroExtend, goesOn_append, sound.terminated, goesOn_zeros]

theorem Sound.holds_store
    (sound : table.Sound)
    (notBefore : table.data.size ≤ offset)
    (inPage : offset % pageLength + (encode text).size < pageLength) :
    (table.store offset text).Holds offset text := by
  refine ⟨inPage, (zeroExtend table.data offset).toList, [], toList_data_store .., ?_,
    sound.goesOn_zeroExtend offset⟩
  rw [Array.length_toList, size_zeroExtend notBefore]

theorem Sound.store
    (sound : table.Sound)
    (notBefore : table.data.size ≤ offset)
    (inPage : offset % pageLength + (encode text).size < pageLength) :
    (table.store offset text).Sound := by
  constructor
  · rw [toList_data_store, ← List.append_assoc]
    exact goesOn_terminated _ _
  · intro other id known
    by_cases same : other = text
    · subst same
      rw [idOf?_store_self, Option.some.injEq] at known
      cases isKnown : table.idOf? other with
      | none =>
          rw [isKnown, Option.getD_none] at known
          exact known ▸ sound.holds_store notBefore inPage
      | some earlier =>
          rw [isKnown, Option.getD_some] at known
          exact known ▸ (sound.stored other earlier isKnown).extends (extends_store ..)
    · rw [idOf?_store_ne same] at known
      exact (sound.stored other id known).extends (extends_store ..)

end Store

/-! ## Calls -/

/-- A call of a string table. -/
inductive Call where
  | add (text : String)
  | place (id : Nat) (text : String)
  | padTo (size : Nat)
deriving DecidableEq, Repr

/-- Makes a call, which answers an id if it adds a string. -/
def Call.run : Call → TableM (Option Nat)
  | .add text => do
    let id ← StringTable.add text
    return some id
  | .place id text => do
    StringTable.place id text
    return none
  | .padTo size => do
    modify (·.padTo size)
    return none

/-- The table after a call, whether it succeeds or fails. -/
def next (table : StringTable) (call : Call) : StringTable :=
  match call.run table with
  | .ok _ next => next
  | .error _ next => next

/-- The table after calls, going on after those that fail. -/
def after (table : StringTable) (calls : List Call) : StringTable :=
  calls.foldl next table

/-- A call by which a string gets an id. -/
inductive Gives (table : StringTable) : Call → Nat → String → Prop
  | added (text : String) (id : Nat) (next : StringTable) (ok : add text table = .ok id next) :
      Gives table (.add text) id text
  | placed (id : Nat) (text : String) (next : StringTable)
      (ok : place id text table = .ok () next) :
      Gives table (.place id text) id text

section Steps

variable {table : StringTable} {id : Nat} {text : String}

/-- What a call does: it fails or finds a string known, and leaves the table as it is, or it stores
a string, or zeros at the end. -/
theorem Call.run_outcomes (table : StringTable) (call : Call) :
    (∃ error, call.run table = .error error table) ∨
      (∃ answer, call.run table = .ok answer table) ∨
      (∃ answer id text, call.run table = .ok answer (table.store id text) ∧
        table.data.size ≤ id ∧ id % pageLength + (encode text).size < pageLength) ∨
      ∃ size, call.run table = .ok none (table.padTo size) := by
  cases call with
  | padTo size => exact .inr (.inr (.inr ⟨size, rfl⟩))
  | add text =>
      simp only [run, bind, EStateM.bind]
      rcases table.add_outcomes text with ⟨id, -, known⟩ | ⟨-, -, refused⟩ |
          ⟨id, -, notBefore, inPage, stored⟩
      · rw [known]
        exact .inr (.inl ⟨_, rfl⟩)
      · rw [refused]
        exact .inl ⟨_, rfl⟩
      · rw [stored]
        exact .inr (.inr (.inl ⟨_, id, text, rfl, notBefore, inPage⟩))
  | place id text =>
      simp only [run, bind, EStateM.bind]
      rcases table.place_outcomes id text with ⟨-, refused⟩ | ⟨notBefore, inPage, stored⟩
      · rw [refused]
        exact .inl ⟨_, rfl⟩
      · rw [stored]
        exact .inr (.inr (.inl ⟨_, id, text, rfl, notBefore, inPage⟩))

/-- What a call leaves: the table as it was, a string stored in it, or zeros at its end. -/
theorem next_cases (table : StringTable) (call : Call) :
    table.next call = table ∨
      (∃ id text, table.next call = table.store id text ∧ table.data.size ≤ id ∧
        id % pageLength + (encode text).size < pageLength) ∨
      ∃ size, table.next call = table.padTo size := by
  unfold StringTable.next
  rcases call.run_outcomes table with ⟨_, failed⟩ | ⟨_, known⟩ | ⟨_, id, text, stored, fits⟩ |
      ⟨size, padded⟩
  · rw [failed]
    exact .inl rfl
  · rw [known]
    exact .inl rfl
  · rw [stored]
    exact .inr (.inl ⟨id, text, rfl, fits⟩)
  · rw [padded]
    exact .inr (.inr ⟨size, rfl⟩)

theorem extends_padTo (table : StringTable) (size : Nat) : table.Extends (table.padTo size) :=
  ⟨⟨_, toList_zeroExtend _ _⟩, fun _ _ known => known⟩

theorem Sound.padTo (sound : table.Sound) (size : Nat) : (table.padTo size).Sound :=
  ⟨sound.goesOn_zeroExtend size, fun text id known =>
    (sound.stored text id known).extends (extends_padTo table size)⟩

/-- A call extends the table. -/
theorem extends_next (table : StringTable) (call : Call) : table.Extends (table.next call) := by
  rcases table.next_cases call with same | ⟨id, text, stored, -, -⟩ | ⟨size, padded⟩
  · rw [same]
    exact .refl table
  · rw [stored]
    exact extends_store table id text
  · rw [padded]
    exact extends_padTo table size

/-- A call keeps a table sound. -/
theorem Sound.next (sound : table.Sound) (call : Call) : (table.next call).Sound := by
  rcases table.next_cases call with same | ⟨id, text, stored, notBefore, inPage⟩ | ⟨size, padded⟩
  · rw [same]
    exact sound
  · rw [stored]
    exact sound.store notBefore inPage
  · rw [padded]
    exact sound.padTo size

theorem after_append (table : StringTable) (calls others : List Call) :
    table.after (calls ++ others) = (table.after calls).after others :=
  List.foldl_append

theorem extends_after (table : StringTable) (calls : List Call) :
    table.Extends (table.after calls) := by
  induction calls generalizing table with
  | nil => exact .refl table
  | cons call rest ih =>
      exact (extends_next table call).trans (ih (table.next call))

theorem Sound.after (sound : table.Sound) (calls : List Call) : (table.after calls).Sound := by
  induction calls generalizing table with
  | nil => exact sound
  | cons call rest ih => exact ih (sound.next call)

/-- A string that gets an id stands there, and is known under it unless it was known before. -/
theorem Gives.holds
    {call : Call}
    (gives : table.Gives call id text)
    (sound : table.Sound) :
    (table.next call).Holds id text ∧ ∃ known, (table.next call).idOf? text = some known ∧
      (call = .add text ∨ table.idOf? text = none → known = id) := by
  cases gives with
  | added text id next added =>
      have isNext : table.next (.add text) = next := by
        simp only [StringTable.next, Call.run, bind, EStateM.bind, added]
        rfl
      rw [isNext]
      rcases table.add_outcomes text with ⟨known, isKnown, same⟩ | ⟨-, -, refused⟩ |
          ⟨offset, unknown, notBefore, inPage, stored⟩
      · cases same.symm.trans added
        exact ⟨sound.stored text id isKnown, id, isKnown, fun _ => rfl⟩
      · cases refused.symm.trans added
      · cases stored.symm.trans added
        refine ⟨sound.holds_store notBefore inPage, id, ?_, fun _ => rfl⟩
        rw [idOf?_store_self, unknown, Option.getD_none]
  | placed id text next placed =>
      have isNext : table.next (.place id text) = next := by
        simp only [StringTable.next, Call.run, bind, EStateM.bind, placed]
        rfl
      rw [isNext]
      rcases table.place_outcomes id text with ⟨-, refused⟩ | ⟨notBefore, inPage, stored⟩
      · cases refused.symm.trans placed
      · cases stored.symm.trans placed
        refine ⟨sound.holds_store notBefore inPage, _, idOf?_store_self .., ?_⟩
        rintro (⟨⟨⟩⟩ | unknown)
        rw [unknown, Option.getD_none]

end Steps

/-! ## Reading strings back -/

/-- A string is read back under an id. -/
structure Readable (table : StringTable) (id : Nat) (text : String) : Prop where
  /-- A script with the pages of the table has the string under the id. -/
  string : ∀ script : Script, script.stringPages = table.toPages → script.string? id = some text
  /-- The id is one of the strings of these pages. -/
  listed : ∀ script : Script, script.stringPages = table.toPages → id ∈ script.stringIds
  /-- The bytes of the string with their terminator. -/
  bytes : table.data.extract id (id + (encode text).size + 1) = (encode text).push 0
  /-- They lie in the segment, so that a segment below 2^32 bytes has ids of 32 bits. -/
  inSegment : id + (encode text).size < table.data.size
  /-- They lie in one page. -/
  onePage : id / pageLength = (id + (encode text).size) / pageLength

theorem Holds.readable
    {table : StringTable} {id : Nat} {text : String}
    (holds : table.Holds id text)
    (noZero : '\x00' ∉ text.toList) :
    table.Readable id text := by
  obtain ⟨before, after, isData, rfl, terminated⟩ := holds.stands
  constructor
  · intro script isPages
    have inPage := holds.inPage
    rw [size_encode] at inPage
    rw [string?_eq isPages isData noZero inPage, String.ofList_toList]
  · intro script isPages
    rw [← Array.mem_toList_iff, stringIds_eq isPages, isData]
    exact length_mem_startsFrom terminated (by simp)
  · rw [← Array.toList_inj, Array.toList_extract, isData, size_encode, Array.toList_push,
      toList_encode, List.extract_eq_take_drop, List.drop_left, Nat.add_assoc,
      Nat.add_sub_cancel_left, List.take_length_add_append]
    rfl
  · rw [size_encode, ← Array.length_toList, isData, List.length_append, List.length_append,
      List.length_cons]
    omega
  · have inPage := holds.inPage
    unfold pageLength at inPage ⊢
    omega

/-- A string without zeros that got an id is read back under it after any further calls.  Adding it
again answers the id under which it was first stored and leaves the table as it is.  A call that
fails leaves the segment and the ids as they are. -/
theorem readable_after
    {earlier : List Call} {call : Call} {id : Nat} {text : String}
    (gives : (after {} earlier).Gives call id text)
    (later : List Call) :
    ('\x00' ∉ text.toList → (after {} (earlier ++ call :: later)).Readable id text) ∧
      (∃ known, add text (after {} (earlier ++ call :: later)) =
          .ok known (after {} (earlier ++ call :: later)) ∧
        (call = .add text ∨ (after {} earlier).idOf? text = none → known = id)) ∧
      ∀ (table : StringTable) (failing : Call) (error : Error) (left : StringTable),
        failing.run table = .error error left → left.data = table.data ∧ left.ids = table.ids := by
  have sound := sound_empty.after earlier
  have isAfter : after {} (earlier ++ call :: later) =
      ((after {} earlier).next call).after later := after_append ..
  obtain ⟨holds, known, isKnown, sameId⟩ := gives.holds sound
  have extended := extends_after ((after {} earlier).next call) later
  refine ⟨fun noZero => ?_, ⟨known, ?_, sameId⟩, fun table failing error left failed => ?_⟩
  · rw [isAfter]
    exact (holds.extends extended).readable noZero
  · rw [isAfter, add, extended.ids text known isKnown]
  · rcases failing.run_outcomes table with ⟨_, refused⟩ | ⟨_, found⟩ | ⟨_, _, _, stored, -⟩ |
        ⟨_, padded⟩
    · cases refused.symm.trans failed
      exact ⟨rfl, rfl⟩
    · cases found.symm.trans failed
    · cases stored.symm.trans failed
    · cases padded.symm.trans failed

/-- A string that does not fit in the rest of a page is read back from the next one, and is refused
where it would be placed across their boundary. -/
theorem readable_after_boundary :
    (∃ left, add "ab" (after {} [.padTo 16383]) = .ok 16384 left) ∧
      (after {} ([.padTo 16383] ++ .add "ab" :: [.place 16390 "ab", .padTo 20000])).Readable
        16384 "ab" ∧
      ∃ left, (Call.place 16383 "ab").run {} = .error (.malformed (.stringOverlap 16383)) left ∧
        left.data = #[] ∧ left.ids = [] := by
  have added : ∃ left, add "ab" (after {} [.padTo 16383]) = .ok 16384 left := by
    have size : (after {} [.padTo 16383]).data.size = 16383 := size_zeroExtend (Nat.zero_le _)
    have unknown : (after {} [.padTo 16383]).idOf? "ab" = none := rfl
    have bytes : (encode "ab").size = 2 := by decide
    simp [add, unknown, size, bytes, nextOffset, pageLength]
  have refused : ∃ left, (Call.place 16383 "ab").run {} =
      .error (.malformed (.stringOverlap 16383)) left :=
    ⟨{}, rfl⟩
  obtain ⟨left, isAdded⟩ := added
  obtain ⟨kept, isRefused⟩ := refused
  obtain ⟨readable, -, unchanged⟩ := readable_after (.added "ab" 16384 left isAdded)
    [.place 16390 "ab", .padTo 20000]
  exact ⟨⟨left, isAdded⟩, readable (by decide), kept, isRefused, unchanged _ _ _ _ isRefused⟩

end StringTable
end ScriptBytecode
