import Mathlib.Data.List.Induction
import Mathlib.Data.List.Nodup
import ScriptBytecode.Listing.Names
import ScriptBytecode.Proofs.IntegerText
import ScriptBytecode.Proofs.Walk

/-!
# Functions found in code

Consecutive instructions are divided into functions without loss.  The names that these functions
get are distinct, and the table of names finds each of them at the start of its function.
-/

namespace ScriptBytecode

/-! ## Tables by address -/

namespace AddressTable

variable {α : Type} {base last address : Nat} {entries : List (Nat × α)}

theorem ofList_concat (base last : Nat) (entries : List (Nat × α)) (entry : Nat × α) :
    ofList base last (entries ++ [entry]) = (ofList base last entries).insert entry.1 entry.2 := by
  simp only [ofList, List.foldl_append, List.foldl_cons, List.foldl_nil]

theorem size_insert (table : AddressTable α) (address : Nat) (entry : α) :
    (table.insert address entry).entries.size = table.entries.size := by
  unfold insert
  split <;> simp

theorem base_ofList (base last : Nat) (entries : List (Nat × α)) :
    (ofList base last entries).base = base := by
  induction entries using List.reverseRecOn with
  | nil => rfl
  | append_singleton entries entry ih =>
      rw [ofList_concat, base_insert, ih]

theorem size_ofList (base last : Nat) (entries : List (Nat × α)) :
    (ofList base last entries).entries.size = last + 1 - base := by
  induction entries using List.reverseRecOn with
  | nil => exact Array.size_replicate
  | append_singleton entries entry ih =>
      rw [ofList_concat, size_insert, ih]

/-- A table answers the last of the given entries for an address in its range. -/
theorem get?_ofList (base last : Nat) (entries : List (Nat × α)) (address : Nat) :
    (ofList base last entries).get? address =
      if base ≤ address ∧ address ≤ last then entries.reverse.lookup address else none := by
  induction entries using List.reverseRecOn with
  | nil =>
      simp only [ofList, List.foldl_nil, get?_empty, List.reverse_nil, List.lookup_nil, ite_self]
  | append_singleton entries entry ih =>
      rw [ofList_concat, get?_insert, base_ofList, size_ofList, ih,
        List.reverse_concat, List.lookup_cons]
      by_cases same : entry.1 = address
      · subst same
        by_cases inRange : base ≤ entry.1 ∧ entry.1 ≤ last
        · have inBounds : base ≤ entry.1 ∧ entry.1 - base < last + 1 - base := by omega
          simp [inRange, inBounds]
        · have outOfBounds : ¬(base ≤ entry.1 ∧ entry.1 - base < last + 1 - base) := by omega
          simp [inRange, outOfBounds]
      · have different : (address == entry.1) = false := by simpa using Ne.symm same
        simp [same, different]

/-- A table of distinct addresses has exactly the given entries in its range. -/
theorem get?_ofList_eq_some_iff
    (distinct : (entries.map Prod.fst).Nodup)
    {entry : α} :
    (ofList base last entries).get? address = some entry ↔
      (address, entry) ∈ entries ∧ base ≤ address ∧ address ≤ last := by
  have found : entries.reverse.lookup address = some entry ↔ (address, entry) ∈ entries := by
    rw [List.lookup_eq_some_iff]
    constructor
    · rintro ⟨before, after, divided, -⟩
      rw [← List.mem_reverse, divided]
      simp
    · intro member
      rw [← List.mem_reverse] at member
      obtain ⟨before, after, divided⟩ := List.append_of_mem member
      refine ⟨before, after, divided, ?_⟩
      intro other inBefore
      rw [← List.nodup_reverse, ← List.map_reverse, divided, List.map_append,
        List.nodup_append] at distinct
      have different := distinct.2.2 other.1 (List.mem_map_of_mem inBefore) address (by simp)
      simpa using Ne.symm different
  rw [get?_ofList]
  by_cases inRange : base ≤ address ∧ address ≤ last
  · rw [if_pos inRange, found]
    exact (and_iff_left inRange).symm
  · rw [if_neg inRange]
    constructor
    · rintro ⟨⟩
    · intro ⟨_, isInRange⟩
      exact absurd isInRange inRange

end AddressTable

theorem AddressSet.contains_ofList
    {base last address : Nat} {addresses : List Nat} :
    (AddressSet.ofList base last addresses).contains address = true ↔
      address ∈ addresses ∧ base ≤ address ∧ address ≤ last := by
  rw [AddressTable.contains, AddressSet.ofList, AddressTable.get?_ofList]
  by_cases inRange : base ≤ address ∧ address ≤ last
  · rw [if_pos inRange, and_iff_left inRange, List.lookup_isSome_iff]
    simp
  · simp [inRange]

namespace Listing

open Instruction (Consecutive codeOf codeOf_append consecutive_append)

variable {bodies : List Body}

/-! ## Bodies -/

namespace Body

theorem flatMap_foldr_divideStep (instructions : List Instruction) :
    (instructions.foldr divideStep ([], [])).1 ++
        (instructions.foldr divideStep ([], [])).2.flatMap Body.instructions =
      instructions := by
  induction instructions with
  | nil => rfl
  | cons instruction rest ih =>
      rw [List.foldr_cons]
      generalize rest.foldr divideStep ([], []) = divided at ih ⊢
      unfold divideStep
      split
      split
      · simpa [Body.instructions] using ih
      · simpa using ih

/-- No instruction is lost when instructions are divided into functions. -/
theorem flatMap_divide (instructions : Array Instruction) :
    (divide instructions).flatMap Body.instructions = instructions.toList := by
  have kept := flatMap_foldr_divideStep instructions.toList
  unfold divide
  rw [← Array.foldr_toList]
  split <;> rename_i divided <;> rw [divided] at kept
  · simpa [Body.instructions] using kept
  · simpa using kept

theorem stop_eq
    {body : Body}
    (consecutive : Consecutive body.start body.instructions) :
    body.stop = body.start + (codeOf body.instructions).size := by
  obtain ⟨first, rest⟩ := body
  simp only [Body.instructions, Body.start, Body.stop] at consecutive ⊢
  induction rest generalizing first with
  | nil => simp [codeOf, Instruction.stop, Instruction.size]
  | cons second rest ih =>
      obtain ⟨-, isSecond, later⟩ := consecutive
      have stop := ih second ⟨rfl, later⟩
      rw [List.getLast?_cons, Option.getD_some]
      rw [stop, isSecond]
      simp only [codeOf, Array.size_append, Instruction.stop, Instruction.size]
      omega

end Body

/-- Functions that follow each other from an address on, each of consecutive instructions. -/
def Adjacent : (start : Nat) → List Body → Prop
  | _, [] => True
  | start, body :: rest =>
    body.start = start ∧ Consecutive body.start body.instructions ∧ Adjacent body.stop rest

theorem adjacent_of_consecutive
    {start : Nat}
    (consecutive : Consecutive start (bodies.flatMap Body.instructions)) :
    Adjacent start bodies := by
  induction bodies generalizing start with
  | nil => trivial
  | cons body rest ih =>
      rw [List.flatMap_cons, consecutive_append] at consecutive
      obtain ⟨here, later⟩ := consecutive
      obtain rfl : body.start = start := here.1
      refine ⟨rfl, here, ih ?_⟩
      rwa [Body.stop_eq here]

namespace Adjacent

variable {start : Nat} {bodies : List Body} {body : Body}

variable (adjacent : Adjacent start bodies)

include adjacent

theorem consecutive
    (member : body ∈ bodies) :
    Consecutive body.start body.instructions := by
  induction bodies generalizing start with
  | nil => cases member
  | cons head rest ih =>
      obtain ⟨-, here, later⟩ := adjacent
      rcases List.mem_cons.mp member with rfl | inRest
      · exact here
      · exact ih later inRest

/-- Adjacent functions lie in the code from their common start on. -/
theorem bounds
    (member : body ∈ bodies) :
    start ≤ body.start ∧
      body.stop ≤ start + (codeOf (bodies.flatMap Body.instructions)).size := by
  induction bodies generalizing start with
  | nil => cases member
  | cons head rest ih =>
      obtain ⟨rfl, here, later⟩ := adjacent
      have stop := Body.stop_eq here
      rw [List.flatMap_cons, codeOf_append, Array.size_append]
      rcases List.mem_cons.mp member with rfl | inRest
      · exact ⟨Nat.le_refl _, by omega⟩
      · have inLater := ih later inRest
        omega

theorem start_lt_stop
    (member : body ∈ bodies) :
    body.start < body.stop := by
  have positive := body.first.size_pos
  rw [Body.stop_eq (adjacent.consecutive member)]
  simp only [Body.instructions, codeOf, Array.size_append, Instruction.size] at positive ⊢
  omega

theorem starts_ascending :
    (bodies.map Body.start).Pairwise (· < ·) := by
  induction bodies generalizing start with
  | nil => exact .nil
  | cons head rest ih =>
      have early := adjacent.start_lt_stop List.mem_cons_self
      obtain ⟨-, -, later⟩ := adjacent
      refine .cons ?_ (ih later)
      intro address isStart
      obtain ⟨other, inRest, rfl⟩ := List.mem_map.mp isStart
      have late := (later.bounds inRest).1
      omega

theorem starts_nodup : (bodies.map Body.start).Nodup :=
  adjacent.starts_ascending.imp Nat.ne_of_lt

end Adjacent

/-! ## Names -/

theorem looksGenerated_addressName (address : Nat) :
    looksGenerated (addressName address) = true := by
  have chars : "func_".toList = ['f', 'u', 'n', 'c', '_'] := String.toList_ofList
  rw [looksGenerated, addressName_eq, String.toList_ofList, chars]
  simp

/-- A function goes by a name made of its address, or by its own if that cannot be mistaken for
such a name. -/
def NamedBody.GoesBy (function : NamedBody) : Prop :=
  function.name = addressName function.body.start ∨
    function.body.ownName? = some function.name ∧ looksGenerated function.name = false

theorem nameBody_cases (named : Array NamedBody) (body : Body) :
    nameBody named body = addressName body.start ∨
      body.ownName? = some (nameBody named body) ∧
        looksGenerated (nameBody named body) = false ∧
        ∀ other ∈ named, other.name ≠ nameBody named body := by
  unfold nameBody
  split
  · rename_i name isOwn
    split
    · exact .inl rfl
    · rename_i usable
      simp only [Bool.or_eq_true, not_or, Bool.not_eq_true, Array.any_eq_false] at usable
      refine .inr ⟨isOwn, usable.1.2, ?_⟩
      intro other member
      obtain ⟨index, inBounds, rfl⟩ := Array.mem_iff_getElem.mp member
      simpa using usable.2 index inBounds
  · exact .inl rfl

theorem nameBodies_concat (bodies : List Body) (body : Body) :
    nameBodies (bodies ++ [body]) =
      (nameBodies bodies).push ⟨nameBody (nameBodies bodies) body, body⟩ := by
  simp only [nameBodies, List.foldl_append, List.foldl_cons, List.foldl_nil]

theorem map_body_nameBodies (bodies : List Body) :
    (nameBodies bodies).toList.map NamedBody.body = bodies := by
  induction bodies using List.reverseRecOn with
  | nil => rfl
  | append_singleton bodies body ih =>
      rw [nameBodies_concat, Array.toList_push, List.map_append, ih]
      rfl

theorem nameBodies_goesBy (bodies : List Body) :
    ∀ function ∈ (nameBodies bodies).toList, function.GoesBy := by
  induction bodies using List.reverseRecOn with
  | nil => simp [nameBodies]
  | append_singleton bodies body ih =>
      rw [nameBodies_concat, Array.toList_push, List.forall_mem_append, List.forall_mem_singleton]
      refine ⟨ih, ?_⟩
      rcases nameBody_cases (nameBodies bodies) body with byAddress | ⟨isOwn, plain, -⟩
      · exact .inl byAddress
      · exact .inr ⟨isOwn, plain⟩

/-- Functions that start at different addresses get different names. -/
theorem names_nodup
    (distinct : (bodies.map Body.start).Nodup) :
    ((nameBodies bodies).toList.map NamedBody.name).Nodup := by
  induction bodies using List.reverseRecOn with
  | nil => exact List.nodup_nil
  | append_singleton bodies body ih =>
      rw [List.map_append, List.nodup_append] at distinct
      rw [nameBodies_concat, Array.toList_push, List.map_append, List.nodup_append]
      refine ⟨ih distinct.1, List.nodup_singleton _, ?_⟩
      intro name inNamed other isNew
      obtain ⟨function, member, rfl⟩ := List.mem_map.mp inNamed
      rw [List.map_singleton, List.mem_singleton] at isNew
      subst isNew
      rcases nameBody_cases (nameBodies bodies) body with byAddress | ⟨-, -, unused⟩
      · intro same
        simp only at same
        rw [byAddress] at same
        rcases nameBodies_goesBy bodies function member with otherAddress | ⟨-, plain⟩
        · have sameStart := addressName_injective (otherAddress.symm.trans same)
          refine distinct.2.2 function.body.start ?_ body.start (by simp) sameStart
          have inBodies := List.mem_map_of_mem (f := NamedBody.body) member
          rw [map_body_nameBodies] at inBodies
          exact List.mem_map_of_mem inBodies
        · rw [same, looksGenerated_addressName] at plain
          cases plain
      · exact unused function (Array.mem_toList_iff.mp member)

/-- The table of names has the name of each function at its start and nothing else. -/
theorem get?_functionNames_iff
    (adjacent : Adjacent 0 bodies)
    {address : Nat} {name : String} :
    (functionNames (codeOf (bodies.flatMap Body.instructions)).size (nameBodies bodies)).get?
        address = some name ↔
      ∃ function ∈ (nameBodies bodies).toList,
        function.body.start = address ∧ function.name = name := by
  have distinct : (((nameBodies bodies).toList.map fun function =>
      (function.body.start, function.name)).map Prod.fst).Nodup := by
    have starts := adjacent.starts_nodup
    rw [← map_body_nameBodies bodies, List.map_map] at starts
    rwa [List.map_map]
  rw [functionNames, AddressTable.get?_ofList_eq_some_iff distinct, List.mem_map]
  constructor
  · rintro ⟨⟨function, member, isEntry⟩, -⟩
    cases isEntry
    exact ⟨function, member, rfl, rfl⟩
  · rintro ⟨function, member, rfl, rfl⟩
    have inBodies := List.mem_map_of_mem (f := NamedBody.body) member
    rw [map_body_nameBodies] at inBodies
    have early := adjacent.start_lt_stop inBodies
    have late := (adjacent.bounds inBodies).2
    exact ⟨⟨function, member, rfl⟩, Nat.zero_le _, by omega⟩

end Listing
end ScriptBytecode
