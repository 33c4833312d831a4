import ScriptBytecode.Proofs.Answers
import ScriptBytecode.Proofs.FunctionLayout

/-!
# How linking fails

A reference can be resolved, or it offends in one of four ways.  Linking resolves the references in
order and fails at the first one that offends, with the error of that offence; there is no other
way in which laid out functions fail to be linked.
-/

namespace ScriptBytecode

open Builder Statement

variable {allLines : List FunctionLines} {stop : Nat} {entries : List Entry} {fixup : Fixup}

variable {size : Nat} {functions : List FunctionCode}

namespace Fixup

/-- A target whose distance from the end of an operand fits a signed 16-bit word. -/
def Reaches (address target : Nat) : Prop :=
  -0x8000 ≤ (target : Int) - (address + 2) ∧ (target : Int) - (address + 2) ≤ 0x7FFF

/-- A reference to a label placed in its own function and near enough, or to a function whose
address has 24 bits. -/
def Linkable (functions : List FunctionSymbols) (fixup : Fixup) : Prop :=
  match fixup.kind with
  | .relative => ∃ symbols ∈ functions, symbols.name = fixup.function ∧
      ∃ target, (fixup.target, target) ∈ symbols.labels ∧ Reaches fixup.address target
  | .absolute => ∃ symbols ∈ functions, symbols.name = fixup.target ∧ symbols.start ≤ 0xFFFFFF

/-- What is wrong with a reference. -/
inductive Offends (functions : List FunctionSymbols) (fixup : Fixup) : Error → Prop
  | undefinedLabel
      (isRelative : fixup.kind = .relative)
      (unplaced : ∀ symbols ∈ functions, symbols.name = fixup.function →
        fixup.target ∉ symbols.labels.map Prod.fst) :
      Offends functions fixup (.undefinedLabel fixup.function fixup.target)
  | jumpOutOfRange
      (isRelative : fixup.kind = .relative)
      (symbols : FunctionSymbols)
      (member : symbols ∈ functions)
      (isFunction : symbols.name = fixup.function)
      (target : Nat)
      (placed : (fixup.target, target) ∈ symbols.labels)
      (far : ¬Reaches fixup.address target) :
      Offends functions fixup (.jumpOutOfRange fixup.address target)
  | undefinedFunction
      (isAbsolute : fixup.kind = .absolute)
      (unknown : ∀ symbols ∈ functions, symbols.name ≠ fixup.target) :
      Offends functions fixup (.undefinedFunction fixup.target)
  | addressOutOfRange
      (isAbsolute : fixup.kind = .absolute)
      (symbols : FunctionSymbols)
      (member : symbols ∈ functions)
      (isFunction : symbols.name = fixup.target)
      (far : 0xFFFFFF < symbols.start) :
      Offends functions fixup (.addressOutOfRange symbols.start)

end Fixup

/-! ## Finding symbols -/

/-- Among distinct keys a value is found exactly if it is there. -/
theorem lookup_eq_some_iff_mem
    {entries : List (String × Nat)}
    (nodup : (entries.map Prod.fst).Nodup)
    (key : String)
    (value : Nat) :
    entries.lookup key = some value ↔ (key, value) ∈ entries := by
  induction entries with
  | nil => simp
  | cons entry rest ih =>
      obtain ⟨other, found⟩ := entry
      obtain ⟨fresh, restNodup⟩ := List.nodup_cons.mp nodup
      rw [List.lookup_cons, List.mem_cons]
      by_cases same : key = other
      · subst same
        have onlyHere : (key, value) ∉ rest :=
          fun later => fresh (List.mem_map.mpr ⟨(key, value), later, rfl⟩)
        simp [onlyHere, eq_comm]
      · simp [same, beq_eq_false_iff_ne.mpr same, ih restNodup]

/-- Functions with distinct names, each with distinct labels. -/
structure Distinct (functions : List FunctionSymbols) : Prop where
  names : (functions.map FunctionSymbols.name).Nodup
  labels : ∀ symbols ∈ functions, (symbols.labels.map Prod.fst).Nodup

section Found

variable {actual functions : List FunctionSymbols} {symbols : FunctionSymbols}

variable (same : List.Forall₂ FunctionSymbols.SameAs actual functions)

include same

/-- A function is found under its name. -/
theorem exists_find?_of_mem
    (names : (functions.map FunctionSymbols.name).Nodup)
    (member : symbols ∈ functions) :
    ∃ found, actual.find? (·.name == symbols.name) = some found ∧ found.SameAs symbols := by
  induction same with
  | nil => cases member
  | @cons first other actual functions sameFirst later ih =>
      obtain ⟨fresh, laterNames⟩ := List.nodup_cons.mp names
      rcases List.mem_cons.mp member with rfl | inLater
      · exact ⟨first, by simp [sameFirst.name], sameFirst⟩
      · have different : first.name ≠ symbols.name := by
          rw [sameFirst.name]
          exact fun same => fresh (same ▸ List.mem_map_of_mem inLater)
        obtain ⟨found, isFound, sameFound⟩ := ih laterNames inLater
        exact ⟨found, by rw [List.find?_cons_of_neg (by simpa using different), isFound], sameFound⟩

theorem find?_eq_none_of_unknown
    {name : String}
    (unknown : ∀ symbols ∈ functions, symbols.name ≠ name) :
    actual.find? (·.name == name) = none := by
  induction same with
  | nil => rfl
  | @cons first other actual functions sameFirst later ih =>
      obtain ⟨notHere, notLater⟩ := List.forall_mem_cons.mp unknown
      rw [List.find?_cons_of_neg (by simpa [sameFirst.name] using notHere)]
      exact ih notLater

/-- A label is found in its function exactly if it is placed there. -/
theorem finishedLabel?_eq_some_iff
    (distinct : Distinct functions)
    (member : symbols ∈ functions)
    (label : String)
    (target : Nat) :
    finishedLabel? actual.toArray symbols.name label = some target ↔
      (label, target) ∈ symbols.labels := by
  obtain ⟨found, isFound, sameFound⟩ := exists_find?_of_mem same distinct.names member
  have nodup : (found.labels.map Prod.fst).Nodup :=
    (sameFound.labels.map Prod.fst).nodup_iff.mpr (distinct.labels symbols member)
  rw [finishedLabel?, List.find?_toArray, isFound, Option.bind_some,
    lookup_eq_some_iff_mem nodup, sameFound.labels.mem_iff]

end Found

/-! ## Resolving one reference -/

namespace Fixup

variable {actual functions : List FunctionSymbols} {fixup : Fixup} {error : Error} {code : Bytes}
    {symbols : Array FunctionSymbols} {fixups : List Fixup}

/-- The label of a reference, if it is placed in the function of the reference. -/
theorem finishedLabel?_eq_none_of_unplaced
    (same : List.Forall₂ FunctionSymbols.SameAs actual functions)
    (distinct : Distinct functions)
    (unplaced : ∀ symbols ∈ functions, symbols.name = fixup.function →
      fixup.target ∉ symbols.labels.map Prod.fst) :
    finishedLabel? actual.toArray fixup.function fixup.target = none := by
  by_cases known : ∃ symbols ∈ functions, symbols.name = fixup.function
  · obtain ⟨symbols, member, isFunction⟩ := known
    rw [← isFunction, Option.eq_none_iff_forall_ne_some]
    intro target found
    rw [finishedLabel?_eq_some_iff same distinct member] at found
    exact unplaced symbols member isFunction (List.mem_map.mpr ⟨_, found, rfl⟩)
  · have unknown : ∀ symbols ∈ functions, symbols.name ≠ fixup.function :=
      fun symbols member isFunction => known ⟨symbols, member, isFunction⟩
    rw [finishedLabel?, List.find?_toArray, find?_eq_none_of_unknown same unknown,
      Option.bind_none]

/-- A reference that offends fails with the error of its offence. -/
theorem Offends.operand_eq
    (offends : Offends functions fixup error)
    (same : List.Forall₂ FunctionSymbols.SameAs actual functions)
    (distinct : Distinct functions) :
    fixup.operand actual.toArray = .error error := by
  cases offends with
  | undefinedLabel isRelative unplaced =>
      simp only [operand, isRelative, finishedLabel?_eq_none_of_unplaced same distinct unplaced]
  | jumpOutOfRange isRelative symbols member isFunction target placed far =>
      have found := (finishedLabel?_eq_some_iff same distinct member _ _).mpr placed
      rw [isFunction] at found
      simp only [operand, isRelative, found]
      exact if_neg far
  | undefinedFunction isAbsolute unknown =>
      simp only [operand, isAbsolute, List.find?_toArray, find?_eq_none_of_unknown same unknown]
  | addressOutOfRange isAbsolute symbols member isFunction far =>
      obtain ⟨found, isFound, sameFound⟩ := exists_find?_of_mem same distinct.names member
      rw [isFunction] at isFound
      simp only [operand, isAbsolute, List.find?_toArray, isFound, sameFound.start]
      exact if_pos far

/-- A reference that can be linked is resolved. -/
theorem Linkable.resolvable
    (linkable : Linkable functions fixup)
    (same : List.Forall₂ FunctionSymbols.SameAs actual functions)
    (distinct : Distinct functions) :
    fixup.Resolvable actual.toArray := by
  unfold Linkable at linkable
  cases isKind : fixup.kind with
  | relative =>
      rw [isKind] at linkable
      obtain ⟨symbols, member, isFunction, target, placed, near⟩ := linkable
      have found := (finishedLabel?_eq_some_iff same distinct member _ _).mpr placed
      rw [isFunction] at found
      exact ⟨_, (operand_relative_iff isKind).mpr ⟨target, found, near, rfl⟩⟩
  | absolute =>
      rw [isKind] at linkable
      obtain ⟨symbols, member, isFunction, near⟩ := linkable
      obtain ⟨found, isFound, sameFound⟩ := exists_find?_of_mem same distinct.names member
      rw [isFunction] at isFound
      refine ⟨_, (operand_absolute_iff isKind).mpr ⟨found, ?_, ?_, rfl⟩⟩
      · rw [List.find?_toArray, isFound]
      · rw [sameFound.start]
        exact near

/-- A reference can be linked or offends. -/
theorem linkable_or_offends (functions : List FunctionSymbols) (fixup : Fixup) :
    Linkable functions fixup ∨ ∃ error, Offends functions fixup error := by
  unfold Linkable
  cases isKind : fixup.kind with
  | relative =>
      by_cases placed : ∃ symbols ∈ functions, symbols.name = fixup.function ∧
          fixup.target ∈ symbols.labels.map Prod.fst
      · obtain ⟨symbols, member, isFunction, isLabel⟩ := placed
        obtain ⟨⟨_, target⟩, isPlaced, rfl⟩ := List.mem_map.mp isLabel
        by_cases near : Reaches fixup.address target
        · exact .inl ⟨symbols, member, isFunction, target, isPlaced, near⟩
        · exact .inr ⟨_, .jumpOutOfRange isKind symbols member isFunction target isPlaced near⟩
      · refine .inr ⟨_, .undefinedLabel isKind fun symbols member isFunction isLabel => ?_⟩
        exact placed ⟨symbols, member, isFunction, isLabel⟩
  | absolute =>
      by_cases known : ∃ symbols ∈ functions, symbols.name = fixup.target
      · obtain ⟨symbols, member, isFunction⟩ := known
        by_cases near : symbols.start ≤ 0xFFFFFF
        · exact .inl ⟨symbols, member, isFunction, near⟩
        · exact .inr ⟨_, .addressOutOfRange isKind symbols member isFunction (Nat.not_le.mp near)⟩
      · refine .inr ⟨_, .undefinedFunction isKind fun symbols member isFunction => ?_⟩
        exact known ⟨symbols, member, isFunction⟩

theorem operand_eq_error_iff
    (same : List.Forall₂ FunctionSymbols.SameAs actual functions)
    (distinct : Distinct functions) :
    fixup.operand actual.toArray = .error error ↔ Offends functions fixup error := by
  constructor
  · intro failed
    rcases linkable_or_offends functions fixup with linkable | ⟨other, offends⟩
    · obtain ⟨operand, found⟩ := linkable.resolvable same distinct
      rw [found] at failed
      cases failed
    · rw [offends.operand_eq same distinct] at failed
      cases failed
      exact offends
  · exact fun offends => offends.operand_eq same distinct

theorem resolvable_iff
    (same : List.Forall₂ FunctionSymbols.SameAs actual functions)
    (distinct : Distinct functions) :
    fixup.Resolvable actual.toArray ↔ Linkable functions fixup := by
  constructor
  · rintro ⟨operand, found⟩
    rcases linkable_or_offends functions fixup with linkable | ⟨error, offends⟩
    · exact linkable
    · rw [offends.operand_eq same distinct] at found
      cases found
  · exact fun linkable => linkable.resolvable same distinct

/-! ## Resolving references in order -/

theorem length_operand
    {operand : List UInt8}
    (found : fixup.operand symbols = .ok operand) :
    operand.length = fixup.kind.width := by
  cases isKind : fixup.kind with
  | relative =>
      obtain ⟨_, _, _, rfl⟩ := (operand_relative_iff isKind).mp found
      rfl
  | absolute =>
      obtain ⟨_, _, _, rfl⟩ := (operand_absolute_iff isKind).mp found
      rfl

/-- A reference in the code is resolved without changing the size of the code, or fails with the
error of its operand. -/
theorem resolve_cases
    (symbols : Array FunctionSymbols)
    (isInPage : inPage code.size fixup.address fixup.kind.width = true) :
    (fixup.Resolvable symbols ∧
      ∃ next, fixup.resolve symbols code = .ok next ∧ next.size = code.size) ∨
      ∃ error, fixup.operand symbols = .error error ∧
        fixup.resolve symbols code = .error error := by
  cases found : fixup.operand symbols with
  | error error => exact .inr ⟨error, rfl, by simp only [resolve, found]⟩
  | ok operand =>
      refine .inl ⟨⟨operand, found⟩, overwrite code fixup.address operand, ?_, size_overwrite ..⟩
      simp only [resolve, found, patch, length_operand found, isInPage, if_true]
      rfl

theorem not_resolvable
    {fixup : Fixup}
    (failed : fixup.operand symbols = .error error) :
    ¬fixup.Resolvable symbols := by
  rintro ⟨operand, found⟩
  rw [found] at failed
  cases failed

/-- References in the code are resolved in order, up to the first one that fails. -/
theorem foldlM_resolve_eq_error_iff
    (symbols : Array FunctionSymbols)
    (inPages : ∀ fixup ∈ fixups, inPage code.size fixup.address fixup.kind.width = true)
    (error : Error) :
    fixups.foldlM (Fixup.resolve symbols) code = .error error ↔
      ∃ before fixup after, fixups = before ++ fixup :: after ∧
        (∀ earlier ∈ before, earlier.Resolvable symbols) ∧
        fixup.operand symbols = .error error := by
  induction fixups generalizing code with
  | nil => simp [pure, Except.pure]
  | cons first rest ih =>
      obtain ⟨inPageHere, inPagesLater⟩ := List.forall_mem_cons.mp inPages
      rw [List.foldlM_cons, exists_first_cons_iff]
      rcases resolve_cases symbols inPageHere with
        ⟨resolvable, next, resolved, sameSize⟩ | ⟨found, failed, stopped⟩
      · have notHere : ¬first.operand symbols = .error error :=
          fun failed => not_resolvable failed resolvable
        rw [← sameSize] at inPagesLater
        rw [resolved, or_iff_right notHere, and_iff_right resolvable]
        exact ih inPagesLater
      · rw [stopped, failed, or_iff_left fun later => not_resolvable failed later.1]
        simp [bind, Except.bind]

/-- References in the code are all resolved exactly if each of them can be. -/
theorem exists_foldlM_resolve_iff
    (symbols : Array FunctionSymbols)
    (inPages : ∀ fixup ∈ fixups, inPage code.size fixup.address fixup.kind.width = true) :
    (∃ result, fixups.foldlM (Fixup.resolve symbols) code = .ok result) ↔
      ∀ fixup ∈ fixups, fixup.Resolvable symbols := by
  induction fixups generalizing code with
  | nil => simp [pure, Except.pure]
  | cons first rest ih =>
      obtain ⟨inPageHere, inPagesLater⟩ := List.forall_mem_cons.mp inPages
      rw [List.foldlM_cons, List.forall_mem_cons]
      rcases resolve_cases symbols inPageHere with
        ⟨resolvable, next, resolved, sameSize⟩ | ⟨error, failed, stopped⟩
      · rw [← sameSize] at inPagesLater
        rw [resolved, and_iff_right resolvable]
        exact ih inPagesLater
      · simp [stopped, not_resolvable failed, bind, Except.bind]

end Fixup

/-! ## References of laid out functions -/

/-- An instruction that fits in half a page and holds its references. -/
structure Entry.Fits (entry : Entry) : Prop where
  short : entry.bytes.size < instructionLimit
  inside : ∀ reference ∈ entry.references,
    reference.offset + reference.kind.width ≤ entry.bytes.size

theorem Line.fits_entry
    {line : Line}
    (encodable : line.2.Encodable) :
    line.entry.Fits where
  short := by
    have short : (Placement.bytes ⟨"", 0, 0, line.2⟩).size < instructionLimit :=
      Placement.size_bytes_lt encodable.emittable encodable.fewCases
    exact short
  inside := line.2.fragment_placeholders.operand_le

theorem le_sizeAfter (size : Nat) (entries : List Entry) : size ≤ sizeAfter size entries := by
  induction entries generalizing size with
  | nil => exact Nat.le_refl _
  | cons entry rest ih =>
      have later := ih (addressFor size entry.bytes + entry.bytes.size)
      unfold addressFor at later
      rw [sizeAfter]
      unfold addressFor
      omega

/-- Placed instructions stand at addresses for them, in the code. -/
theorem address_of_mem_placeEntries
    {address : Nat} {entry : Entry}
    (member : (address, entry) ∈ placeEntries size entries) :
    (∃ before, address = addressFor before entry.bytes) ∧
      address + entry.bytes.size ≤ sizeAfter size entries := by
  induction entries generalizing size with
  | nil => cases member
  | cons first rest ih =>
      rcases List.mem_cons.mp member with isFirst | inRest
      · cases isFirst
        exact ⟨⟨size, rfl⟩, le_sizeAfter _ _⟩
      · exact ih inRest

/-- The references of placed instructions lie in the pages of the code. -/
theorem inPage_of_mem_fixupsIn
    {function : String}
    (fits : ∀ entry ∈ entries, entry.Fits)
    (inCode : sizeAfter size entries ≤ stop)
    (member : fixup ∈ fixupsIn function (placeEntries size entries)) :
    Fixup.inPage stop fixup.address fixup.kind.width = true := by
  obtain ⟨⟨address, entry⟩, isPlaced, isReference⟩ := List.mem_flatMap.mp member
  obtain ⟨reference, inEntry, rfl⟩ := List.mem_map.mp isReference
  obtain ⟨⟨before, rfl⟩, notBeyond⟩ := address_of_mem_placeEntries isPlaced
  have isEntry : entry ∈ entries := by
    rw [← map_snd_placeEntries size entries]
    exact List.mem_map_of_mem isPlaced
  have samePage := addressFor_mod_add_le before (fits entry isEntry).short
  have inside := (fits entry isEntry).inside reference inEntry
  have width : 0 < reference.kind.width := by cases reference.kind <;> decide
  have pageExists := Paged.lt_pageCount_of_lt
    (show addressFor before entry.bytes + reference.offset < stop by omega)
  simp only [Fixup.inPage, fixupOf, pageExists, true_and, decide_eq_true_eq]
  unfold pageLength at *
  omega

theorem inPage_of_mem_fixupsFrom
    (fits : ∀ function ∈ functions, ∀ entry ∈ function.entries, entry.Fits)
    (inCode : sizeAfter size (functions.flatMap FunctionCode.entries) ≤ stop)
    (member : fixup ∈ FunctionCode.fixupsFrom size functions) :
    Fixup.inPage stop fixup.address fixup.kind.width = true := by
  induction functions generalizing size with
  | nil => cases member
  | cons function rest ih =>
      obtain ⟨fitsHere, fitsLater⟩ := List.forall_mem_cons.mp fits
      rw [List.flatMap_cons, sizeAfter_append] at inCode
      rcases List.mem_append.mp member with isHere | isLater
      · exact inPage_of_mem_fixupsIn fitsHere (Nat.le_trans (le_sizeAfter _ _) inCode) isHere
      · exact ih fitsLater inCode isLater

/-! ## Finishing a build of functions -/

/-- The first reference that offends, in order, has a given error. -/
def FirstOffence (functions : List FunctionSymbols) (fixups : List Fixup) (error : Error) : Prop :=
  ∃ before fixup after, fixups = before ++ fixup :: after ∧
    (∀ earlier ∈ before, earlier.Linkable functions) ∧ fixup.Offends functions error

/-- Functions with distinct names and distinct labels have distinct symbols. -/
theorem distinct_symbolsFrom
    (namesNodup : (functions.map FunctionCode.name).Nodup)
    (labelsNodup : ∀ function ∈ functions, function.labels.Nodup)
    (size : Nat) :
    Distinct (FunctionCode.symbolsFrom size functions) := by
  have kept := FunctionCode.map_symbolsFrom size functions
  constructor
  · have names := congrArg (List.map Prod.fst) kept
    simp only [List.map_map, Function.comp_def] at names
    rw [names]
    exact namesNodup
  · intro symbols member
    have inKept : (symbols.name, symbols.labels.map Prod.fst) ∈
        functions.map fun function => (function.name, function.labels) := by
      rw [← kept]
      exact List.mem_map_of_mem member
    obtain ⟨function, isFunction, same⟩ := List.mem_map.mp inKept
    rw [← (Prod.mk.inj same).2]
    exact labelsNodup function isFunction

/-- What is known of the functions that follow lines. -/
theorem of_follow
    (follow : List.Forall₂ FunctionCode.Follows functions allLines)
    (writable : ∀ lines ∈ allLines, lines.Writable) :
    ∀ function ∈ functions, function.labels.Nodup ∧ ∀ entry ∈ function.entries, entry.Fits := by
  induction follow with
  | nil => simp
  | @cons function lines functions allLines here later ih =>
      obtain ⟨writableHere, writableLater⟩ := List.forall_mem_cons.mp writable
      refine List.forall_mem_cons.mpr ⟨⟨?_, ?_⟩, ih writableLater⟩
      · rw [here.labels_eq]
        exact writableHere.labelsNodup
      · rw [here.entries_eq, List.forall_mem_map]
        exact fun line member => Line.fits_entry (writableHere.encodable line member)

/-- The result of a build whose references are resolved. -/
def Builder.linkedAs (builder : Builder) (code : Bytes) : LinkedCode :=
  ⟨Paged.ofArray code, code.size,
    builder.functions.map fun symbols => (symbols.name, symbols.start)⟩

/-- Finishing a build outside of functions resolves the references in order. -/
theorem Builder.finish_eq_map
    {builder : Builder}
    (outside : builder.current = none) :
    builder.finish =
      ((builder.settled ++ builder.recent).toList.foldlM (Fixup.resolve builder.functions)
        builder.code).map builder.linkedAs := by
  unfold finish
  rw [outside, Option.isSome_none, if_neg (by decide), Array.foldlM_toList]
  rfl

/-- Functions with distinct names that can be written are placed without failing, and their build
is finished exactly if their references can be linked.  It fails only by the first offence. -/
theorem exists_finish_of_follow
    (follow : List.Forall₂ FunctionCode.Follows functions allLines)
    (writable : ∀ lines ∈ allLines, lines.Writable)
    (namesNodup : (functions.map FunctionCode.name).Nodup) :
    ∃ builder, functions.forM CodeUnit.placeFunction {} = .ok () builder ∧
      (∀ error, builder.finish = .error error ↔
        FirstOffence (FunctionCode.symbolsFrom 0 functions)
          (FunctionCode.fixupsFrom 0 functions) error) ∧
      ((∃ linked, builder.finish = .ok linked) ↔
        ∀ fixup ∈ FunctionCode.fixupsFrom 0 functions,
          fixup.Linkable (FunctionCode.symbolsFrom 0 functions)) := by
  have known := of_follow follow writable
  have distinct := distinct_symbolsFrom namesNodup (fun function member =>
    (known function member).1) 0
  have noCode : ({} : Builder).code.size = 0 := rfl
  have noFunctions : (({} : Builder).functions.toList.map FunctionSymbols.name ++
      functions.map FunctionCode.name).Nodup := namesNodup
  obtain ⟨builder, steps, symbols, run, isCalls, outside, hasSize, isSymbols, same, hasFixups⟩ :=
    exists_place_functions follow writable rfl noCode noFunctions
  have emittable : ∀ step ∈ steps, step.1.Emittable := by
    intro step member
    have isCall : step.1 ∈ allLines.flatMap FunctionLines.calls := by
      rw [← isCalls]
      exact List.mem_map_of_mem member
    obtain ⟨lines, inLines, isCall⟩ := List.mem_flatMap.mp isCall
    exact (writable lines inLines).emittable step.1 isCall
  have placed : functions.forM CodeUnit.placeFunction {} = .ok () builder := by
    rw [forM_placeFunction_eq follow writable, ← isCalls]
    exact placeCalls_of_steps run emittable (by rintro _ ⟨⟩)
  have inPages : ∀ fixup ∈ FunctionCode.fixupsFrom 0 functions,
      Fixup.inPage builder.code.size fixup.address fixup.kind.width = true := by
    intro fixup member
    exact inPage_of_mem_fixupsFrom (fun function isFunction => (known function isFunction).2)
      (Nat.le_of_eq hasSize.symm) member
  have finishes := Builder.finish_eq_map outside
  replace isSymbols : builder.functions = symbols.toArray := by
    simpa using congrArg List.toArray isSymbols
  replace hasFixups : (builder.settled ++ builder.recent).toList =
      FunctionCode.fixupsFrom 0 functions := by simpa using hasFixups
  rw [hasFixups, isSymbols] at finishes
  refine ⟨builder, placed, fun error => ?_, ?_⟩
  · have failed := Fixup.foldlM_resolve_eq_error_iff symbols.toArray inPages error
    simp only [Fixup.resolvable_iff same distinct, Fixup.operand_eq_error_iff same distinct]
      at failed
    rw [FirstOffence, ← failed, finishes]
    exact map_eq_error_iff
  · have succeeded := Fixup.exists_foldlM_resolve_iff symbols.toArray inPages
    simp only [Fixup.resolvable_iff same distinct] at succeeded
    rw [← succeeded, finishes]
    exact exists_map_eq_ok_iff

end ScriptBytecode
