import ScriptBytecode.Proofs.AssembledCode
import ScriptBytecode.Proofs.ListedStrings
import ScriptBytecode.Proofs.NumberText
import ScriptBytecode.Proofs.WrittenFunctions

/-!
# Reassembling a listed script

An assembled script has a listing, and assembling this listing gives the script again.  The code
comes back because every instruction of an assembled script stays in its place, the strings because
their ids are their offsets, and the natives because their table is listed as a whole.
-/

namespace ScriptBytecode
namespace Listing

open Instruction (Consecutive codeOf)

/-! ## The parts of an assembled script -/

/-- The script with the data of a listing, its string pages and its code. -/
def Config.script (config : Config) (stringPages : Paged UInt8) (code : UnitCode) : Script :=
  let script : Script :=
    { argsCount := config.argsCount
      statics := config.statics
      globalsSignature := config.globalsSignature
      globalsBlock := config.globalsBlock
      globalsPages := .ofArray config.globals
      stringPages
      globalBlockHashes := config.globalBlockHashes
      codePages := code.pages
      natives := code.natives }
  script.withName config.name

theorem assemble_eq_ok_iff
    {listing : Listing} {fuse : Bool} {script : Script} :
    listing.assemble fuse = .ok script ↔
      ∃ codeUnit strings code,
        writeFunctions listing.config.natives listing.functions {} = .ok () codeUnit ∧
          stringPages listing.config = .ok strings ∧
          codeUnit.finish fuse = .ok code ∧
          script = listing.config.script strings code := by
  unfold assemble
  constructor
  · intro assembled
    simp only at assembled
    split at assembled
    · cases assembled
    · rename_i codeUnit wrote
      obtain ⟨strings, isStrings, later⟩ := exists_of_bind_eq_ok assembled
      obtain ⟨code, finished, isScript⟩ := exists_of_bind_eq_ok later
      cases isScript
      exact ⟨codeUnit, strings, code, wrote, isStrings, finished, rfl⟩
  · rintro ⟨codeUnit, strings, code, wrote, isStrings, finished, rfl⟩
    simp only [wrote, isStrings, finished]
    rfl

/-! ## The code -/

/-- Operands whose text is not taken for other operands: the name of a function is no integer, and
a constant is no NaN. -/
def isLegible : Operands → Bool
  | .enter _ _ nameField =>
    (Operands.enterName? nameField).all fun name => (Text.integer? name).isNone
  | .f32 value => !value.isNaN
  | _ => true

/-- The names of functions in a listing are no integers. -/
theorem integer?_of_get?_functionNames
    {instructions : List Instruction}
    (consecutive : Consecutive 0 instructions)
    (legible : ∀ instruction ∈ instructions, isLegible instruction.operands)
    {address : Nat} {name : String}
    (found : (functionNames (codeOf instructions).size
      (nameBodies (Body.divide instructions.toArray))).get? address = some name) :
    Text.integer? name = none := by
  obtain ⟨function, member, -, rfl⟩ := (get?_names_iff consecutive).mp found
  obtain byAddress | ⟨isOwn, -⟩ := nameBodies_goesBy _ function member
  · rw [byAddress]
    exact integer?_addressName _
  · have inBody : function.body.first ∈ function.body.instructions := List.mem_cons_self
    have isLegible := legible _ (mem_of_mem_body member inBody)
    unfold Body.ownName? at isOwn
    split at isOwn
    · rename_i isEnter
      rw [isEnter, Listing.isLegible, isOwn, Option.all_some] at isLegible
      exact Option.isNone_iff_eq_none.mp isLegible
    · cases isOwn

theorem readFloat_of_isLegible
    {instruction : Instruction}
    (legible : isLegible instruction.operands)
    {value : Binary32}
    (isNumber : instruction.operands = .f32 value) :
    readFloat value.text = .ok value := by
  rw [isNumber, isLegible, Bool.not_eq_true'] at legible
  exact readFloat_text legible

/-- Instructions that are listed and written again are finished to the same code. -/
theorem exists_rewritten
    {natives : Array UInt64}
    (nativesNodup : natives.toList.Nodup)
    (fewNatives : natives.size ≤ maxNatives)
    {instructions : List Instruction}
    (stationary : Stationary instructions)
    (listable : ∀ instruction ∈ instructions, instruction.Listable natives)
    (legible : ∀ instruction ∈ instructions, isLegible instruction.operands) :
    ∃ functions codeUnit code,
      functionsOf (codeOf instructions).size natives instructions.toArray = .ok functions ∧
        writeFunctions natives functions {} = .ok () codeUnit ∧
        codeUnit.finish false = .ok code ∧
        code.pages = .ofArray (codeOf instructions) ∧ code.natives = natives := by
  obtain ⟨functions, isListed, lists⟩ := exists_functionsOf
    (fun _ _ => integer?_of_get?_functionNames stationary.consecutive legible) listable
    (fun instruction member _ => readFloat_of_isLegible (legible instruction member))
  have writable := linesOf_writable (codeOf instructions).size stationary.consecutive
    stationary.wellFormed
  obtain ⟨codeUnit, wrote, sameNatives, outside, follow⟩ := exists_writeFunctions nativesNodup
    fewNatives lists writable (linesOf_names_nodup _ stationary.consecutive)
  obtain ⟨builder, placed, finished⟩ := stationary.exists_relinked
  rw [← forM_placeFunction_eq follow writable] at placed
  have linked : codeUnit.finish false = .ok ⟨.ofArray (codeOf instructions),
      (codeOf instructions).size, codeUnit.natives,
      (Builder.linkedCode builder.functions instructions).functions⟩ := by
    rw [CodeUnit.finish, outside]
    simp only [Option.isSome_none, Bool.false_eq_true, if_false, EStateM.run, placed, finished]
    rfl
  exact ⟨functions, codeUnit, _, isListed, wrote, linked, rfl, sameNatives⟩

/-! ## The script -/

/-- Listing an assembled script and assembling the listing gives the script again, if no function
has an integer for a name and no constant is a NaN.  Offsets are added to addresses of 32 bits, so
the code has to end an offset before the last address: otherwise a sum could wrap around to an
address in the code. -/
theorem assemble_ofScript
    {listing : Listing} {fuse : Bool} {script : Script}
    (assembled : listing.assemble fuse = .ok script)
    (legible : ∀ instruction ∈ (walk script.code).instructions, isLegible instruction.operands)
    (room : script.codeLength + 2 ^ 15 ≤ 2 ^ 32) :
    ∃ relisted, ofScript script = .ok relisted ∧ relisted.assemble false = .ok script := by
  obtain ⟨codeUnit, strings, code, wrote, isStrings, finished, rfl⟩ :=
    assemble_eq_ok_iff.mp assembled
  have sound := sound_writeFunctions wrote
  obtain ⟨sameNatives, instructions, isCode, consecutive, settled⟩ :=
    sound.exists_instructions finished
  obtain ⟨data, texts, rfl, segments⟩ := exists_segments isStrings
  have listable := fun instruction member => (settled instruction member).listable
  have wellFormed := fun instruction member => (listable instruction member).wellFormed
  have flat : (listing.config.script (.ofArray data) code).code = codeOf instructions := by
    simp only [Script.code, Config.script, Script.withName, isCode, Paged.flatten_ofArray]
  have walked := walk_codeOf wellFormed consecutive
  have small : (codeOf instructions).size + 2 ^ 15 ≤ 2 ^ 32 := by
    rwa [Script.codeLength, Paged.length_eq_size_flatten, ← Script.code, flat] at room
  rw [flat, walked] at legible
  have stationary : Stationary instructions :=
    ⟨consecutive, wellFormed, fun instruction member => (settled instruction member).stays, small⟩
  obtain ⟨functions, newUnit, newCode, isListed, rewrote, refinished, samePages, keptNatives⟩ :=
    exists_rewritten sound.indexed.nodup sound.indexed.fewNatives stationary listable
      fun instruction member => legible instruction (List.mem_toArray.mpr member)
  refine ⟨⟨configOf (listing.config.script (.ofArray data) code), functions⟩, ?_,
    assemble_eq_ok_iff.mpr ⟨newUnit, .ofArray data, newCode, ?_, ?_, refinished, ?_⟩⟩
  · rw [ofScript, flat, walked]
    change (functionsOf _ code.natives instructions.toArray).bind _ = _
    rw [sameNatives, isListed]
    rfl
  · rw [← sameNatives] at rewrote
    exact rewrote
  · exact stringPages_configOf rfl segments
  · simp only [Config.script, configOf, Script.withName, samePages, keptNatives, isCode,
      sameNatives, Paged.flatten_ofArray]

/-- A listing with a loop, a switch, a call, a native, a number, and strings with and without an
id; an addition can be fused. -/
def greeterListing : Listing where
  config :=
    { name := "greeter"
      argsCount := 1
      statics := #[7]
      globals := #[1, 2]
      natives := #[0x4EDE34FBADD967A6]
      strings := [⟨none, "bye"⟩, ⟨some 2, "hello"⟩]
      stringsLength := 16 }
  functions :=
    [⟨"main", 0,
      [.instruction none "ENTER" ["0", "2", "main"], .label "top",
        .instruction none "PUSH_CONST_F" ["-1.5e-3"], .instruction none "PUSH_CONST_U8" ["10"],
        .instruction none "IADD" [], .instruction none "JZ" ["top"],
        .instruction none "CALL" ["helper"],
        .instruction none "NATIVE" ["1", "1", "0x4EDE34FBADD967A6"],
        .instruction none "LEAVE" ["0", "0"]]⟩,
      ⟨"helper", 0,
      [.instruction none "ENTER" ["0", "2"],
        .instruction none "SWITCH" ["7:end", "9:end"], .label "end",
        .instruction none "LEAVE" ["0", "0"]]⟩]

theorem assemble_ofScript_greeterListing :
    ∃ script relisted,
      greeterListing.assemble true = .ok script ∧ script.codeLength = 53 ∧
        ofScript script = .ok relisted ∧ relisted.assemble false = .ok script := by
  have known : (greeterListing.assemble true).toOption.map (fun script =>
      (script.codeLength, (walk script.code).instructions.all (isLegible ·.operands))) =
      some (53, true) := by
    decide +kernel
  obtain ⟨script, isScript, facts⟩ := Option.map_eq_some_iff.mp known
  obtain ⟨length, legible⟩ := Prod.mk.inj facts
  rw [toOption_eq_some_iff] at isScript
  obtain ⟨relisted, isListed, same⟩ := assemble_ofScript isScript
    (fun instruction member => Array.all_eq_true_iff_forall_mem.mp legible instruction member)
    (by omega)
  exact ⟨script, relisted, isScript, length, isListed, same⟩

end Listing
end ScriptBytecode
