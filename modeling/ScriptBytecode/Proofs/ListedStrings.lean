import ScriptBytecode.Proofs.Paging
import ScriptBytecode.Proofs.Placement
import ScriptBytecode.Proofs.StringSegments

/-!
# Listing a string segment

The strings that are listed for a segment are its texts with their offsets, so that assembling them
gives the same string pages.
-/

namespace ScriptBytecode

open Utf8

/-! ## The offsets of strings -/

namespace Script

variable {script : Script} {data : Bytes} {offset : Nat} {bytes : List UInt8} {chars : List Char}

/-- The offsets at which a string begins among bytes: all but those after a byte that is not
zero. -/
def startsFrom : (offset : Nat) → (inString : Bool) → List UInt8 → List Nat
  | _, _, [] => []
  | offset, inString, byte :: rest =>
    (if inString then [] else [offset]) ++ startsFrom (offset + 1) (byte != 0) rest

/-- Whether a string goes on after bytes. -/
def goesOn : (inString : Bool) → List UInt8 → Bool
  | inString, [] => inString
  | _, byte :: rest => goesOn (byte != 0) rest

theorem startsFrom_append (offset : Nat) (inString : Bool) (left right : List UInt8) :
    startsFrom offset inString (left ++ right) =
      startsFrom offset inString left ++
        startsFrom (offset + left.length) (goesOn inString left) right := by
  induction left generalizing offset inString with
  | nil => rfl
  | cons byte left ih =>
      rw [List.cons_append, startsFrom, startsFrom, ih, List.append_assoc,
        List.length_cons, goesOn, Nat.add_assoc, Nat.add_comm 1]

theorem stringId_eq
    (pageIndex : Nat)
    (inPage : offset < pageLength) :
    stringId pageIndex offset = pageIndex * pageLength + offset := by
  rw [stringId, ← Nat.shiftLeft_add_eq_or_of_lt inPage, Nat.shiftLeft_eq]
  rfl

/-- The reading of a byte of a page. -/
def readStringByte (pageIndex : Nat) :
    Array Nat × Bool × Nat → UInt8 → Array Nat × Bool × Nat
  | (ids, inString, offset), byte =>
    (if inString then ids else ids.push (stringId pageIndex offset), byte != 0, offset + 1)

theorem foldl_readStringByte
    (pageIndex : Nat)
    (bytes : List UInt8)
    (inPage : offset + bytes.length ≤ pageLength)
    (inString : Bool)
    (ids : Array Nat) :
    bytes.foldl (readStringByte pageIndex) (ids, inString, offset) =
      (ids ++ startsFrom (pageIndex * pageLength + offset) inString bytes,
        goesOn inString bytes, offset + bytes.length) := by
  induction bytes generalizing offset inString ids with
  | nil => simp [startsFrom, goesOn]
  | cons byte bytes ih =>
      rw [List.length_cons, Nat.add_comm bytes.length, ← Nat.add_assoc] at inPage
      rw [List.foldl_cons, readStringByte, ih inPage, startsFrom, goesOn,
        stringId_eq pageIndex (show offset < pageLength by omega), List.length_cons,
        Nat.add_comm bytes.length, ← Nat.add_assoc, ← Nat.add_assoc]
      cases inString <;> simp

theorem pageStringIds_eq
    (pageIndex : Nat)
    {page : Bytes}
    (fits : page.size ≤ pageLength)
    (inString : Bool)
    (ids : Array Nat) :
    pageStringIds pageIndex page inString ids =
      (ids ++ startsFrom (pageIndex * pageLength) inString page.toList,
        goesOn inString page.toList) := by
  have inPage : 0 + page.toList.length ≤ pageLength := by
    rwa [Nat.zero_add, Array.length_toList]
  have read := foldl_readStringByte pageIndex page.toList inPage inString ids
  have isRead : pageStringIds pageIndex page inString ids =
      ((page.foldl (readStringByte pageIndex) (ids, inString, 0)).1,
        (page.foldl (readStringByte pageIndex) (ids, inString, 0)).2.1) := rfl
  rw [isRead, ← Array.foldl_toList, read, Nat.add_zero]

/-- The reading of a page. -/
def readStringPage : Array Nat × Bool × Nat → Bytes → Array Nat × Bool × Nat
  | (ids, inString, pageIndex), page =>
    ((pageStringIds pageIndex page inString ids).1, (pageStringIds pageIndex page inString ids).2,
      pageIndex + 1)

theorem foldl_readStringPage
    {pages : List Bytes}
    (sizes : ∀ (index : Nat) (page : Bytes), pages[index]? = some page →
      page.size ≤ pageLength ∧ (index + 1 < pages.length → page.size = pageLength))
    (pageIndex : Nat)
    (inString : Bool)
    (ids : Array Nat) :
    (pages.foldl readStringPage (ids, inString, pageIndex)).1.toList =
      ids.toList ++ startsFrom (pageIndex * pageLength) inString (pages.flatMap Array.toList) := by
  induction pages generalizing pageIndex inString ids with
  | nil => simp [startsFrom]
  | cons page pages ih =>
      obtain ⟨fits, full⟩ := sizes 0 page rfl
      have laterSizes : ∀ (index : Nat) (other : Bytes), pages[index]? = some other →
          other.size ≤ pageLength ∧ (index + 1 < pages.length → other.size = pageLength) := by
        intro index other found
        obtain ⟨otherFits, otherFull⟩ := sizes (index + 1) other found
        exact ⟨otherFits, fun more => otherFull (by rw [List.length_cons]; omega)⟩
      rw [List.foldl_cons, readStringPage, ih laterSizes,
        pageStringIds_eq pageIndex fits, List.flatMap_cons, startsFrom_append, Array.length_toList]
      -- a page that is not full is the last one, and no offset follows it
      by_cases isLast : pages = []
      · simp [isLast, startsFrom]
      · have more : 0 + 1 < (page :: pages).length := by
          rw [List.length_cons]
          exact Nat.succ_lt_succ (List.length_pos_iff.mpr isLast)
        rw [full more, Nat.succ_mul]
        simp

theorem stringIds_eq
    (isPages : script.stringPages = .ofArray data) :
    script.stringIds.toList = startsFrom 0 false data.toList := by
  have sizes : ∀ (index : Nat) (page : Bytes),
      (Paged.ofArray data).pages.toList[index]? = some page → page.size ≤ pageLength ∧
        (index + 1 < (Paged.ofArray data).pages.toList.length → page.size = pageLength) := by
    intro index page found
    rw [Array.getElem?_toList] at found
    refine ⟨?_, fun notLast => Paged.size_page_ofArray found (by simpa using notLast)⟩
    rw [(Paged.getElem?_pages_ofArray found).2, Array.size_extract, Nat.succ_mul]
    omega
  have read := foldl_readStringPage sizes 0 false #[]
  have joined : (Paged.ofArray data).pages.toList.flatMap Array.toList = data.toList := by
    have flat := congrArg Array.toList (Paged.flatten_ofArray data)
    rwa [Paged.flatten, Array.toList_flatten, ← List.flatMap_def] at flat
  have isRead : script.stringIds =
      (script.stringPages.pages.foldl readStringPage (#[], false, 0)).1 := rfl
  rw [Nat.zero_mul, joined, Array.foldl_toList] at read
  rw [isRead, isPages]
  exact read

/-! ## The strings at offsets -/

/-- A string is read up to the end of its page. -/
theorem string?_of_lt
    (isPages : script.stringPages = .ofArray data)
    {id : Nat}
    (inData : id < data.size) :
    script.string? id =
      some (decode (untilZero (data.extract id ((id / pageLength + 1) * pageLength)))) := by
  have place := Nat.div_add_mod' id pageLength
  have inPage := Nat.mod_lt id Paged.pageLength_pos
  have atPage : (Paged.ofArray data).pages[id / pageLength]? =
      some (data.extract (id / pageLength * pageLength) ((id / pageLength + 1) * pageLength)) := by
    simp [Paged.ofArray, Paged.lt_pageCount_of_lt inData]
  simp only [string?, isPages, atPage, Option.bind_eq_bind, Option.bind_some, Array.size_extract,
    Array.extract_extract]
  rw [if_pos (by rw [Nat.succ_mul]; omega), place]
  congr 3
  rw [Array.extract_eq_extract_right, Nat.succ_mul]
  omega

/-- The string at the offset of a text is that text. -/
theorem string?_eq
    (isPages : script.stringPages = .ofArray data)
    {before : List UInt8}
    (isData : data.toList = before ++ (encodeChars chars ++ 0 :: bytes))
    (noZero : '\x00' ∉ chars)
    (inPage : before.length % pageLength + (encodeChars chars).length < pageLength) :
    script.string? before.length = some (String.ofList chars) := by
  have inData : before.length < data.size := by
    rw [← Array.length_toList, isData, List.length_append, List.length_append, List.length_cons]
    omega
  have place := Nat.div_add_mod' before.length pageLength
  obtain ⟨more, room⟩ : ∃ more, (before.length / pageLength + 1) * pageLength - before.length =
      (encodeChars chars).length + (more + 1) := by
    apply Nat.exists_eq_add_of_lt
    rw [Nat.succ_mul]
    omega
  have upToPage : (data.extract before.length
      ((before.length / pageLength + 1) * pageLength)).toList =
      encodeChars chars ++ 0 :: bytes.take more := by
    rw [Array.toList_extract, List.extract_eq_take_drop, isData, List.drop_left, room,
      List.take_length_add_append, List.take_succ_cons]
  rw [string?_of_lt isPages inData, untilZero, ← @Array.toArray_toList _ (data.extract _ _),
    upToPage, List.takeWhile_toArray, takeWhile_append_zero (ne_zero_of_mem_encodeChars noZero),
    decode_encodeChars]

/-! ## The strings of a segment -/

/-- After bytes in a string the next string begins behind their terminator. -/
theorem startsFrom_true
    (noZero : ∀ byte ∈ bytes, byte ≠ 0)
    (offset : Nat)
    (rest : List UInt8) :
    startsFrom offset true (bytes ++ 0 :: rest) =
      startsFrom (offset + bytes.length + 1) false rest := by
  induction bytes generalizing offset with
  | nil => rfl
  | cons byte bytes ih =>
      obtain ⟨notZero, laterNotZero⟩ := List.forall_mem_cons.mp noZero
      have goesOn : (byte != 0) = true := by simpa using notZero
      rw [List.cons_append, startsFrom, goesOn, ih laterNotZero, if_pos rfl,
        List.nil_append, List.length_cons, Nat.add_right_comm offset 1, Nat.add_assoc offset]

/-- Among the bytes of a text a string begins at the first of them only. -/
theorem startsFrom_text
    (notEmpty : chars ≠ [])
    (noZero : '\x00' ∉ chars)
    (offset : Nat)
    (rest : List UInt8) :
    startsFrom offset false (encodeChars chars ++ 0 :: rest) =
      offset :: startsFrom (offset + (encodeChars chars).length + 1) false rest := by
  have bytesNotZero := ne_zero_of_mem_encodeChars noZero
  cases isBytes : encodeChars chars with
  | nil =>
      have decoded := charsFrom_encodeChars chars
      rw [isBytes] at decoded
      exact absurd decoded.symm notEmpty
  | cons byte bytes =>
      rw [isBytes] at bytesNotZero
      obtain ⟨notZero, laterNotZero⟩ := List.forall_mem_cons.mp bytesNotZero
      have goesOn : (byte != 0) = true := by simpa using notZero
      rw [List.cons_append, startsFrom, goesOn, startsFrom_true laterNotZero, List.length_cons,
        Nat.add_right_comm offset 1, Nat.add_assoc offset]
      rfl

end Script

namespace Listing

open Script

variable {script : Script} {data : Bytes} {texts : List (Nat × String)}

/-- The entry that is listed for a string, unless it is empty. -/
def entryAt? (script : Script) (id : Nat) : Option StringEntry :=
  match script.string? id with
  | some value => if value.isEmpty then none else some ⟨some id, value⟩
  | none => none

/-- The entry of a text. -/
def textEntry : Nat × String → StringEntry
  | (id, value) => ⟨some id, value⟩

/-- The strings that are listed for a part of a segment are its texts. -/
theorem filterMap_startsFrom
    (isPages : script.stringPages = .ofArray data)
    {start : Nat} {bytes : List UInt8}
    (segments : Segments start bytes texts)
    {before : List UInt8}
    (isData : data.toList = before ++ bytes)
    (isStart : before.length = start) :
    (startsFrom start false bytes).filterMap (entryAt? script) = texts.map textEntry := by
  induction segments generalizing before with
  | nil start => rfl
  | @zero start bytes texts rest ih =>
      have isEmpty : script.string? start = some "" := by
        subst isStart
        have noText : data.toList = before ++ (encodeChars [] ++ 0 :: bytes) := isData
        exact string?_eq isPages noText List.not_mem_nil (Nat.mod_lt _ Paged.pageLength_pos)
      have noEntry : entryAt? script start = none := by
        simp [entryAt?, isEmpty]
      rw [startsFrom, if_neg Bool.false_ne_true, List.singleton_append,
        List.filterMap_cons_none noEntry]
      have later : data.toList = (before ++ [0]) ++ bytes := by
        simpa using isData
      exact ih later (by rw [List.length_append, isStart]; rfl)
  | @text start chars bytes texts notEmpty noZero inPage rest ih =>
      have isText : script.string? start = some (String.ofList chars) := by
        subst isStart
        exact string?_eq isPages isData noZero inPage
      have isEntry : entryAt? script start = some (textEntry (start, String.ofList chars)) := by
        simp [entryAt?, isText, notEmpty, textEntry]
      rw [startsFrom_text notEmpty noZero, List.filterMap_cons_some isEntry, List.map_cons]
      congr 1
      have later : data.toList = (before ++ (encodeChars chars ++ [0])) ++ bytes := by
        simpa using isData
      exact ih later (by simp [isStart, Nat.add_assoc])

/-- The strings that are listed for a segment are its texts. -/
theorem stringEntries_eq
    (isPages : script.stringPages = .ofArray data)
    (segments : Segments 0 data.toList texts) :
    stringEntries script = texts.map textEntry := by
  have listed := filterMap_startsFrom isPages segments (List.nil_append _).symm rfl
  rwa [← stringIds_eq isPages] at listed

/-- Strings that all have an id are placed in the order of their ids, and nothing is added. -/
theorem stringPages_textEntry
    {config : Config}
    (isListed : config.strings = texts.map textEntry) :
    stringPages config =
      (StringTable.result (placeStrings (sortByKey Prod.fst texts)) {}).map fun table =>
        (table.padTo config.stringsLength).toPages := by
  have placedEntries : (texts.map textEntry).filterMap
      (fun entry => entry.id.map fun id => (id, entry.value)) = texts := by
    rw [List.filterMap_map]
    exact List.filterMap_some
  have noOthers : (texts.map textEntry).filter (·.id.isNone) = [] := by
    rw [List.filter_map, List.map_eq_nil_iff, List.filter_eq_nil_iff]
    exact fun _ _ => Bool.false_ne_true
  have nothingAdded : ∀ table, StringTable.result (addStrings []) table = .ok table := fun _ => rfl
  rw [stringPages, result_writeStrings, isListed, placedEntries, noOthers, List.map_nil]
  cases StringTable.result (placeStrings (sortByKey Prod.fst texts)) {} with
  | error error => simp only [Except.bind, Except.map]
  | ok table => simp only [Except.bind, Except.map, nothingAdded]

/-- Assembling the data that are listed for a segment gives its pages. -/
theorem stringPages_configOf
    (isPages : script.stringPages = .ofArray data)
    (segments : Segments 0 data.toList texts) :
    stringPages (configOf script) = .ok script.stringPages := by
  have atStart : ({} : StringTable).data.size ≤ 0 := Nat.zero_le _
  obtain ⟨table, placed, size, extended⟩ := exists_placeStrings segments atStart
  have isLength : script.stringsLength = 0 + data.toList.length := by
    rw [stringsLength, isPages, Paged.length_eq_size_flatten, Paged.flatten_ofArray,
      Array.length_toList, Nat.zero_add]
  have isTable : (table.padTo script.stringsLength).data = data := by
    rw [isLength]
    exact Array.toList_inj.mp extended
  rw [stringPages_textEntry (stringEntries_eq isPages segments),
    sortByKey_eq_self segments.sorted.1, placed]
  simp only [Except.map, configOf, StringTable.toPages, isTable, isPages]

end Listing

end ScriptBytecode
