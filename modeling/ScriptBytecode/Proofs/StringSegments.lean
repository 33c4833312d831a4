import ScriptBytecode.Listing.Assemble
import ScriptBytecode.Proofs.ListedInstructions

/-!
# String segments

A string segment holds texts with a terminator each, every one of them in one page, and zeros
between them.  Storing the texts of a segment at their offsets gives the segment back, up to zeros
at its end.
-/

namespace ScriptBytecode

open Utf8

/-- Bytes of a string segment from an offset on, and the texts among them with their offsets. -/
inductive Segments : (start : Nat) → List UInt8 → List (Nat × String) → Prop
  | nil (start : Nat) : Segments start [] []
  | zero
      {start : Nat}
      {bytes : List UInt8}
      {texts : List (Nat × String)}
      (rest : Segments (start + 1) bytes texts) :
      Segments start (0 :: bytes) texts
  | text
      {start : Nat}
      {chars : List Char}
      {bytes : List UInt8}
      {texts : List (Nat × String)}
      (notEmpty : chars ≠ [])
      (noZero : '\x00' ∉ chars)
      (inPage : start % pageLength + (encodeChars chars).length < pageLength)
      (rest : Segments (start + (encodeChars chars).length + 1) bytes texts) :
      Segments start (encodeChars chars ++ 0 :: bytes) ((start, String.ofList chars) :: texts)

namespace Segments

variable {start : Nat} {bytes : List UInt8} {texts : List (Nat × String)}

theorem append
    {others : List UInt8} {later : List (Nat × String)}
    (first : Segments start bytes texts)
    (second : Segments (start + bytes.length) others later) :
    Segments start (bytes ++ others) (texts ++ later) := by
  induction first with
  | nil start => exact second
  | @zero start bytes texts rest ih =>
      refine .zero (ih ?_)
      rw [List.length_cons] at second
      rwa [Nat.add_assoc, Nat.add_comm 1]
  | @text start chars bytes texts notEmpty noZero inPage rest ih =>
      rw [List.append_assoc, List.cons_append]
      refine .text notEmpty noZero inPage (ih ?_)
      rw [List.length_append, List.length_cons] at second
      rwa [Nat.add_assoc, Nat.add_assoc, Nat.add_comm 1]

theorem zeros (start count : Nat) : Segments start (List.replicate count 0) [] := by
  induction count generalizing start with
  | zero => exact .nil start
  | succ count ih => exact .zero (ih (start + 1))

/-- The offsets of the texts increase. -/
theorem sorted
    (segments : Segments start bytes texts) :
    texts.Pairwise (fun left right => left.1 ≤ right.1) ∧ ∀ text ∈ texts, start ≤ text.1 := by
  induction segments with
  | nil start => simp
  | zero rest ih =>
      exact ⟨ih.1, fun text member =>
        Nat.le_of_succ_le (ih.2 text member)⟩
  | text notEmpty noZero inPage rest ih =>
      obtain ⟨sorted, notBefore⟩ := ih
      rw [List.pairwise_cons, List.forall_mem_cons]
      refine ⟨⟨fun text member => ?_, sorted⟩, Nat.le_refl _, fun text member => ?_⟩ <;>
        exact Nat.le_trans (by omega) (notBefore text member)

/-- A run of characters that is ended by a terminator. -/
theorem run
    (start : Nat)
    {chars : List Char}
    (noZero : '\x00' ∉ chars)
    (inPage : start % pageLength + (encodeChars chars).length < pageLength) :
    ∃ texts, Segments start (encodeChars chars ++ [0]) texts := by
  by_cases isEmpty : chars = []
  · subst isEmpty
    exact ⟨[], .zero (.nil _)⟩
  · exact ⟨_, .text isEmpty noZero inPage (.nil _)⟩

/-- Characters with a terminator are segments, divided where the characters have zeros. -/
theorem exists_encodeChars
    (start : Nat)
    (begun chars : List Char)
    (noZero : '\x00' ∉ begun)
    (inPage : start % pageLength + (encodeChars (begun ++ chars)).length < pageLength) :
    ∃ texts, Segments start (encodeChars (begun ++ chars) ++ [0]) texts := by
  induction chars generalizing begun start with
  | nil =>
      rw [List.append_nil] at inPage ⊢
      exact run start noZero inPage
  | cons char chars ih =>
      by_cases isZero : char = '\x00'
      · subst isZero
        have split : encodeChars (begun ++ '\x00' :: chars) =
            encodeChars begun ++ [0] ++ encodeChars chars := by
          simp [encodeChars, String.utf8EncodeChar]
        have notZero : '\x00' ∉ ([] : List Char) := List.not_mem_nil
        rw [split] at inPage ⊢
        simp only [List.length_append, List.length_singleton] at inPage
        obtain ⟨texts, first⟩ := run start noZero (by omega)
        have laterInPage : (start + (encodeChars begun ++ [0]).length) % pageLength +
            (encodeChars ([] ++ chars)).length < pageLength := by
          rw [List.length_append, List.length_singleton, List.nil_append, ← Nat.mod_add_mod,
            Nat.mod_eq_of_lt (by omega)]
          omega
        obtain ⟨later, second⟩ := ih _ [] notZero laterInPage
        rw [List.append_assoc]
        exact ⟨_, first.append second⟩
      · have regrouped : begun ++ char :: chars = begun ++ [char] ++ chars := by simp
        rw [regrouped] at inPage ⊢
        refine ih start (begun ++ [char]) ?_ inPage
        simpa [noZero] using Ne.symm isZero

end Segments

/-! ## Tables -/

namespace StringTable

variable {data : Bytes} {table : StringTable} {size : Nat} {next : StringTable} {text : String}

/-- A table whose data are texts with terminators, and zeros between them. -/
def Segmented (table : StringTable) : Prop :=
  ∃ texts, Segments 0 table.data.toList texts

theorem size_zeroExtend
    (notShorter : data.size ≤ size) :
    (zeroExtend data size).size = size := by
  simp only [zeroExtend, Array.size_append, Array.size_replicate]
  omega

theorem zeroExtend_size (data : Bytes) : zeroExtend data data.size = data := by
  simp [zeroExtend]

theorem zeroExtend_succ
    (notShorter : data.size ≤ size) :
    zeroExtend data (size + 1) = (zeroExtend data size).push 0 := by
  rw [zeroExtend, zeroExtend, Nat.succ_sub notShorter, Array.replicate_succ, Array.append_push]

theorem segmented_padTo
    (segmented : table.Segmented)
    (size : Nat) :
    (table.padTo size).Segmented := by
  obtain ⟨texts, segments⟩ := segmented
  refine ⟨texts ++ [], ?_⟩
  rw [padTo, zeroExtend, Array.toList_append, Array.toList_replicate]
  exact segments.append (.zeros _ _)

theorem segmented_store
    (segmented : table.Segmented)
    {offset : Nat}
    (notBefore : table.data.size ≤ offset)
    (inPage : offset % pageLength + (encode text).size < pageLength) :
    (table.store offset text).Segmented := by
  obtain ⟨texts, padded⟩ := segmented_padTo segmented offset
  rw [← Array.length_toList, toList_encode] at inPage
  obtain ⟨later, stored⟩ := Segments.exists_encodeChars offset [] text.toList
    List.not_mem_nil inPage
  refine ⟨texts ++ later, ?_⟩
  have isData : (table.store offset text).data.toList =
      (table.padTo offset).data.toList ++ (encodeChars text.toList ++ [0]) := by
    simp [store, padTo, toList_encode]
  rw [isData]
  refine padded.append ?_
  rw [Nat.zero_add, Array.length_toList, padTo, size_zeroExtend notBefore]
  exact stored

/-! ### Calls -/

theorem result_bind
    {α β : Type}
    (first : TableM α)
    (next : TableM β)
    (table : StringTable) :
    result (do let _ ← first; next) table = result first table >>= result next := by
  simp only [result, bind, EStateM.bind, Except.bind]
  cases first table <;> rfl

/-- Adding a string answers the id that it has, refuses a string that is longer than a page, or
stores the string in one page behind the segment. -/
theorem add_outcomes (table : StringTable) (text : String) :
    (∃ id, table.idOf? text = some id ∧ add text table = .ok id table) ∨
      (table.idOf? text = none ∧ pageLength ≤ (encode text).size ∧
        add text table = .error (.malformed (.stringTooLong (encode text).size)) table) ∨
      ∃ id, table.idOf? text = none ∧ table.data.size ≤ id ∧
        id % pageLength + (encode text).size < pageLength ∧
        add text table = .ok id (table.store id text) := by
  unfold add
  cases isKnown : table.idOf? text with
  | some id => exact .inl ⟨id, rfl, rfl⟩
  | none =>
      dsimp only
      split_ifs with tooLong
      · exact .inr (.inl ⟨rfl, Nat.le_of_lt_succ tooLong, rfl⟩)
      · have together := nextOffset_mod_add_le table.data.size _ (Nat.not_lt.mp tooLong)
        exact .inr (.inr ⟨_, rfl, le_nextOffset _ _, by omega, rfl⟩)

/-- A string is placed in one page and not before the end of the segment, or refused. -/
theorem place_outcomes (table : StringTable) (id : Nat) (text : String) :
    (¬(table.data.size ≤ id ∧ id % pageLength + (encode text).size < pageLength) ∧
        place id text table = .error (.malformed (.stringOverlap id)) table) ∨
      table.data.size ≤ id ∧ id % pageLength + (encode text).size < pageLength ∧
        place id text table = .ok () (table.store id text) := by
  have samePage : id / pageLength = (id + (encode text).size) / pageLength ↔
      id % pageLength + (encode text).size < pageLength := by
    unfold pageLength
    omega
  unfold place
  dsimp only
  split_ifs with overlaps
  · rw [ne_eq, samePage] at overlaps
    exact .inl ⟨by omega, rfl⟩
  · rw [ne_eq, samePage, not_or, Nat.not_lt, Decidable.not_not] at overlaps
    exact .inr ⟨overlaps.1, overlaps.2, rfl⟩

theorem segmented_place
    (segmented : table.Segmented)
    {id : Nat}
    (placed : result (place id text) table = .ok next) :
    next.Segmented := by
  unfold result at placed
  rcases table.place_outcomes id text with ⟨-, refused⟩ | ⟨notBefore, inPage, stored⟩
  · rw [refused] at placed
    cases placed
  · rw [stored] at placed
    cases placed
    exact segmented_store segmented notBefore inPage

theorem segmented_add
    (segmented : table.Segmented)
    (added : result (add text) table = .ok next) :
    next.Segmented := by
  unfold result at added
  rcases table.add_outcomes text with ⟨id, -, known⟩ | ⟨-, -, refused⟩ |
      ⟨id, -, notBefore, inPage, stored⟩
  · rw [known] at added
    cases added
    exact segmented
  · rw [refused] at added
    cases added
  · rw [stored] at added
    cases added
    exact segmented_store segmented notBefore inPage

end StringTable

namespace Listing

open StringTable

variable {table next : StringTable}

theorem segmented_placeStrings
    (segmented : table.Segmented)
    {entries : List (Nat × String)}
    (placed : result (placeStrings entries) table = .ok next) :
    next.Segmented := by
  induction entries generalizing table with
  | nil =>
      cases placed
      exact segmented
  | cons entry entries ih =>
      rw [placeStrings, result_bind] at placed
      obtain ⟨middle, here, later⟩ := exists_of_bind_eq_ok placed
      exact ih (segmented_place segmented here) later

theorem segmented_addStrings
    (segmented : table.Segmented)
    {texts : List String}
    (added : result (addStrings texts) table = .ok next) :
    next.Segmented := by
  induction texts generalizing table with
  | nil =>
      cases added
      exact segmented
  | cons text texts ih =>
      rw [addStrings, result_bind] at added
      obtain ⟨middle, here, later⟩ := exists_of_bind_eq_ok added
      exact ih (segmented_add segmented here) later

/-- The strings of a listing are written in three steps. -/
theorem result_writeStrings (config : Config) (table : StringTable) :
    result (writeStrings config) table =
      (result (placeStrings (sortByKey Prod.fst (config.strings.filterMap fun entry =>
        entry.id.map fun id => (id, entry.value)))) table).bind fun placed =>
      result (addStrings ((config.strings.filter (·.id.isNone)).map StringEntry.value))
        (placed.padTo config.stringsLength) := by
  rw [writeStrings, result_bind]
  rfl

/-- The string pages of a listing are those of a segment. -/
theorem exists_segments
    {config : Config} {pages : Paged UInt8}
    (assembled : stringPages config = .ok pages) :
    ∃ data texts, pages = Paged.ofArray data ∧ Segments 0 data.toList texts := by
  obtain ⟨table, isTable, rfl⟩ := map_eq_ok_iff.mp assembled
  rw [result_writeStrings] at isTable
  obtain ⟨placed, isPlaced, isAdded⟩ := exists_of_bind_eq_ok isTable
  have segmented := segmented_placeStrings ⟨[], .nil 0⟩ isPlaced
  obtain ⟨texts, segments⟩ := segmented_addStrings (segmented_padTo segmented _) isAdded
  exact ⟨table.data, texts, rfl, segments⟩

/-! ## Placing texts again -/

/-- Texts that are placed at their offsets after a part of a segment make the rest of it, up to
zeros at its end. -/
theorem exists_placeStrings
    {start : Nat} {bytes : List UInt8} {texts : List (Nat × String)}
    (segments : Segments start bytes texts)
    (notShorter : table.data.size ≤ start) :
    ∃ next, result (placeStrings texts) table = .ok next ∧
      next.data.size ≤ start + bytes.length ∧
      (zeroExtend next.data (start + bytes.length)).toList =
        (zeroExtend table.data start).toList ++ bytes := by
  induction segments generalizing table with
  | nil start => exact ⟨table, rfl, notShorter, by simp⟩
  | @zero start bytes texts rest ih =>
      obtain ⟨next, placed, size, extended⟩ :=
        ih (Nat.le_succ_of_le notShorter)
      have sameEnd : start + (0 :: bytes).length = start + 1 + bytes.length := by
        rw [List.length_cons]
        omega
      refine ⟨next, placed, sameEnd ▸ size, ?_⟩
      rw [sameEnd, extended, zeroExtend_succ notShorter]
      simp
  | @text start chars bytes texts notEmpty noZero inPage rest ih =>
      have encodedSize : (encode (String.ofList chars)).size = (encodeChars chars).length := by
        rw [← Array.length_toList, toList_encode, String.toList_ofList]
      have placedHere : place start (String.ofList chars) table =
          .ok () (table.store start (String.ofList chars)) := by
        rcases table.place_outcomes start (String.ofList chars) with ⟨refused, -⟩ | ⟨-, -, placed⟩
        · exact absurd ⟨notShorter, encodedSize ▸ inPage⟩ refused
        · exact placed
      have storedData : (table.store start (String.ofList chars)).data.toList =
          (zeroExtend table.data start).toList ++ (encodeChars chars ++ [0]) := by
        simp [store, toList_encode]
      have storedSize : (table.store start (String.ofList chars)).data.size =
          start + (encodeChars chars).length + 1 := by
        rw [← Array.length_toList, storedData, List.length_append, Array.length_toList,
          size_zeroExtend notShorter, List.length_append, List.length_singleton, Nat.add_assoc]
      obtain ⟨next, placed, size, extended⟩ := ih (Nat.le_of_eq storedSize)
      have sameEnd : start + (encodeChars chars ++ 0 :: bytes).length =
          start + (encodeChars chars).length + 1 + bytes.length := by
        simp only [List.length_append, List.length_cons]
        omega
      refine ⟨next, ?_, sameEnd ▸ size, ?_⟩
      · rw [placeStrings, result_bind, result, placedHere]
        exact placed
      · rw [sameEnd, extended, ← storedSize, zeroExtend_size, storedData]
        simp

end Listing
end ScriptBytecode
