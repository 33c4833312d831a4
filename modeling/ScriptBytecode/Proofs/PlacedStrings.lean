import ScriptBytecode.Proofs.ContainerLayout
import ScriptBytecode.Proofs.StoredStrings

/-!
# Strings with ids

Strings that all have an id are placed in the order of their ids, each compared only with the end of
the segment so far.  Placing succeeds for exactly the strings whose stretches have no byte in common
and lie in one page each, whatever order they are listed in, and the segment then holds them and
zeros elsewhere.
-/

namespace ScriptBytecode

open StringTable Utf8

/-! ## Stretches of strings -/

namespace Extent

variable {text : Nat × String}

/-- The stretch of a string at an id, with its terminator. -/
def ofText (text : Nat × String) : Extent :=
  ⟨text.1, (encode text.2).size + 1⟩

/-- Two stretches have no byte in common. -/
def Apart (first second : Extent) : Prop :=
  ∀ index, ¬(first.Covers index ∧ second.Covers index)

/-- All bytes of a stretch lie in one page. -/
def InPage (extent : Extent) : Prop :=
  ∃ page, ∀ index, extent.Covers index → index / pageLength = page

theorem Apart.symm {first second : Extent} (apart : Apart first second) : Apart second first :=
  fun index covered => apart index covered.symm

theorem covers_ofText_iff {index : Nat} :
    (ofText text).Covers index ↔ text.1 ≤ index ∧ index ≤ text.1 + (encode text.2).size := by
  simp only [Covers, stop, ofText]
  omega

/-- Stretches in order are apart if the first ends before the second. -/
theorem apart_ofText_iff
    {first second : Nat × String}
    (inOrder : first.1 ≤ second.1) :
    Apart (ofText first) (ofText second) ↔ (ofText first).stop ≤ second.1 := by
  have isStop : (ofText first).stop = first.1 + ((encode first.2).size + 1) := rfl
  simp only [Apart, covers_ofText_iff, isStop]
  constructor
  · intro apart
    have notBoth := apart second.1
    omega
  · intro before index
    omega

theorem inPage_ofText_iff :
    (ofText text).InPage ↔
      text.1 / pageLength = (text.1 + (encode text.2).size) / pageLength := by
  simp only [InPage, covers_ofText_iff]
  constructor
  · rintro ⟨page, inPage⟩
    rw [inPage text.1 ⟨Nat.le_refl _, Nat.le_add_right _ _⟩,
      inPage (text.1 + (encode text.2).size) ⟨Nat.le_add_right _ _, Nat.le_refl _⟩]
  · intro samePage
    refine ⟨text.1 / pageLength, fun index covered => ?_⟩
    exact Nat.le_antisymm (samePage ▸ Nat.div_le_div_right covered.2)
      (Nat.div_le_div_right covered.1)

end Extent

open Extent

/-- Strings that can be placed together. -/
structure Placeable (texts : List (Nat × String)) : Prop where
  apart : (texts.map ofText).Pairwise Apart
  inPage : ∀ text ∈ texts, (ofText text).InPage

theorem Placeable.perm
    {texts others : List (Nat × String)}
    (permuted : texts.Perm others)
    (placeable : Placeable texts) :
    Placeable others :=
  ⟨(permuted.map ofText).pairwise placeable.apart Apart.symm,
    fun text member => placeable.inPage text (permuted.mem_iff.mpr member)⟩

/-- The end of the last of some strings. -/
def lastStop (texts : List (Nat × String)) : Nat :=
  texts.foldr (fun text last => max (ofText text).stop last) 0

/-- A segment with strings at their ids, zeros elsewhere, and at least a length. -/
structure HoldsTexts (segment : Bytes) (texts : List (Nat × String)) (length : Nat) : Prop where
  holds : ∀ text ∈ texts, Segment.Holds segment text.1 ((encode text.2).toList ++ [0])
  zeros : ∀ index < segment.size, (∀ text ∈ texts, ¬(ofText text).Covers index) →
    segment[index]? = some 0
  size : segment.size = max length (lastStop texts)

/-! ## Storing one string after the other -/

/-- What storing strings does to a segment. -/
structure Stored (segment : Bytes) (texts : List (Nat × String)) (next : Bytes) : Prop where
  kept : ∃ more, next = segment ++ more
  holds : ∀ text ∈ texts, Segment.Holds next text.1 ((encode text.2).toList ++ [0])
  zeros : ∀ index, segment.size ≤ index → index < next.size →
    (∀ text ∈ texts, ¬(ofText text).Covers index) → next[index]? = some 0
  size : next.size = max segment.size (lastStop texts)

namespace Stored

variable {segment middle next : Bytes} {texts others : List (Nat × String)} {table : StringTable}
    {id : Nat}

theorem nil (segment : Bytes) : Stored segment [] segment where
  kept := ⟨#[], Array.append_empty.symm⟩
  holds := by simp
  zeros index notBefore inside := absurd inside (Nat.not_lt.mpr notBefore)
  size := by simp [lastStop]

theorem lastStop_append (texts others : List (Nat × String)) :
    lastStop (texts ++ others) = max (lastStop texts) (lastStop others) := by
  induction texts with
  | nil => simp [lastStop]
  | cons text rest ih =>
      change max _ (lastStop (rest ++ others)) = max (max _ (lastStop rest)) _
      rw [ih, Nat.max_assoc]

theorem append
    (first : Stored segment texts middle)
    (second : Stored middle others next) :
    Stored segment (texts ++ others) next := by
  obtain ⟨more, rfl⟩ := first.kept
  obtain ⟨further, rfl⟩ := second.kept
  refine ⟨⟨more ++ further, Array.append_assoc⟩, ?_, ?_, ?_⟩
  · intro text member
    rcases List.mem_append.mp member with inTexts | inOthers
    · exact (first.holds text inTexts).followed further
    · exact second.holds text inOthers
  · intro index notBefore inside uncovered
    obtain ⟨freeOfTexts, freeOfOthers⟩ := List.forall_mem_append.mp uncovered
    rcases Nat.lt_or_ge index (segment ++ more).size with inMiddle | behind
    · rw [Array.getElem?_append_left inMiddle]
      exact first.zeros index notBefore inMiddle freeOfTexts
    · exact second.zeros index behind inside freeOfOthers
  · rw [second.size, first.size, lastStop_append, Nat.max_assoc]

theorem size_data_store
    (notBefore : table.data.size ≤ id)
    (text : String) :
    (table.store id text).data.size = (ofText (id, text)).stop := by
  simp [StringTable.store, size_zeroExtend notBefore, stop, ofText]

theorem lastStop_perm (permuted : texts.Perm others) : lastStop texts = lastStop others := by
  unfold lastStop
  refine permuted.foldr_eq' ?_ 0
  intro first _ second _ last
  exact Nat.max_left_comm _ _ _

theorem perm (stored : Stored segment texts next) (permuted : texts.Perm others) :
    Stored segment others next where
  kept := stored.kept
  holds text member := stored.holds text (permuted.mem_iff.mpr member)
  zeros index notBefore inside uncovered := by
    refine stored.zeros index notBefore inside fun text member => ?_
    exact uncovered text (permuted.mem_iff.mp member)
  size := lastStop_perm permuted ▸ stored.size

/-- Storing a string behind the segment. -/
theorem store
    (notBefore : table.data.size ≤ id)
    (text : String) :
    Stored table.data [(id, text)] (table.store id text).data := by
  have isData : (table.store id text).data =
      zeroExtend table.data id ++ ((encode text).push 0) := by
    simp [StringTable.store]
  have extended : (zeroExtend table.data id).size = id := size_zeroExtend notBefore
  have size := size_data_store notBefore text
  refine ⟨⟨_, by rw [isData, zeroExtend, Array.append_assoc]⟩, ?_, ?_, ?_⟩
  · intro stored member
    obtain rfl := List.mem_singleton.mp member
    exact ⟨(zeroExtend table.data id).toList, [], by simp [isData], by simp [extended]⟩
  · intro index atLeast inside uncovered
    have notCovered := uncovered _ List.mem_cons_self
    rw [size] at inside
    have inZeros : index < id := by
      simp only [Covers, not_and, Nat.not_lt] at notCovered
      exact Nat.lt_of_not_le fun reached => Nat.not_lt.mpr (notCovered reached) inside
    rw [isData, Array.getElem?_append_left (by rw [extended]; exact inZeros), zeroExtend,
      Array.getElem?_append_right atLeast, Array.getElem?_replicate, if_pos (by omega)]
  · have behind : table.data.size ≤ (ofText (id, text)).stop :=
      Nat.le_trans notBefore (Nat.le_add_right _ _)
    rw [size, lastStop, List.foldr_cons, List.foldr_nil, Nat.max_zero, Nat.max_eq_right behind]

theorem holdsTexts
    (stored : Stored #[] texts next)
    (length : Nat) :
    HoldsTexts (zeroExtend next length) texts length := by
  have size : next.size = lastStop texts := stored.size.trans (Nat.zero_max _)
  refine ⟨fun text member => (stored.holds text member).followed _, ?_, ?_⟩
  · intro index inside uncovered
    rcases Nat.lt_or_ge index next.size with inNext | behind
    · rw [zeroExtend, Array.getElem?_append_left inNext]
      exact stored.zeros index (Nat.zero_le _) inNext uncovered
    · rw [zeroExtend, Array.size_append, Array.size_replicate] at inside
      rw [zeroExtend, Array.getElem?_append_right behind, Array.getElem?_replicate,
        if_pos (by omega)]
  · rw [zeroExtend, Array.size_append, Array.size_replicate, size]
    omega

end Stored

/-! ## Placing strings in order -/

/-- A string is placed behind the segment and in one page, or not at all. -/
theorem StringTable.result_place_eq_or (table : StringTable) (id : Nat) (text : String) :
    (table.data.size ≤ id ∧ (ofText (id, text)).InPage) ∧
        result (place id text) table = .ok (table.store id text) ∨
      ¬(table.data.size ≤ id ∧ (ofText (id, text)).InPage) ∧
        result (place id text) table = .error (.malformed (.stringOverlap id)) := by
  have samePage : (ofText (id, text)).InPage ↔
      id % pageLength + (encode text).size < pageLength := by
    rw [inPage_ofText_iff]
    dsimp only
    unfold pageLength
    omega
  rw [samePage, result]
  rcases table.place_outcomes id text with ⟨free, refused⟩ | ⟨notBefore, inPage, stored⟩
  · rw [refused]
    exact .inr ⟨free, rfl⟩
  · rw [stored]
    exact .inl ⟨⟨notBefore, inPage⟩, rfl⟩

namespace Listing

variable {texts : List (Nat × String)}

theorem result_placeStrings_cons
    (table : StringTable)
    (text : Nat × String)
    (rest : List (Nat × String)) :
    result (placeStrings (text :: rest)) table =
      result (place text.1 text.2) table >>= result (placeStrings rest) :=
  result_bind ..

theorem stored_placeStrings
    {table next : StringTable}
    (placed : result (placeStrings texts) table = .ok next) :
    Stored table.data texts next.data := by
  induction texts generalizing table with
  | nil =>
      cases placed
      exact .nil _
  | cons text rest ih =>
      rw [result_placeStrings_cons] at placed
      obtain ⟨middle, here, later⟩ := exists_of_bind_eq_ok placed
      rcases table.result_place_eq_or text.1 text.2 with ⟨⟨notBefore, -⟩, stored⟩ | ⟨-, refused⟩
      · cases stored.symm.trans here
        exact (Stored.store notBefore text.2).append (ih later)
      · cases refused.symm.trans here

/-- Strings are placed one after the other if each begins behind the segment and the strings before
it. -/
theorem exists_placeStrings_eq_ok_iff (table : StringTable) (texts : List (Nat × String)) :
    (∃ next, result (placeStrings texts) table = .ok next) ↔
      (texts.Pairwise fun first second => (ofText first).stop ≤ second.1) ∧
        (∀ text ∈ texts, table.data.size ≤ text.1) ∧ ∀ text ∈ texts, (ofText text).InPage := by
  induction texts generalizing table with
  | nil => simp [placeStrings, result, pure, EStateM.pure]
  | cons text rest ih =>
      obtain ⟨id, value⟩ := text
      simp only [List.pairwise_cons, List.forall_mem_cons, result_placeStrings_cons]
      rcases table.result_place_eq_or id value with
        ⟨⟨notBefore, inPage⟩, isPlaced⟩ | ⟨isRefused, isError⟩
      · have behind : id ≤ (ofText (id, value)).stop := Nat.le_add_right _ _
        rw [isPlaced]
        change (∃ next, result (placeStrings rest) (table.store id value) = .ok next) ↔ _
        rw [ih, Stored.size_data_store notBefore]
        constructor
        · rintro ⟨ascending, later, allInPage⟩
          refine ⟨⟨later, ascending⟩, ⟨notBefore, fun other member => ?_⟩, inPage, allInPage⟩
          exact Nat.le_trans notBefore (Nat.le_trans behind (later other member))
        · rintro ⟨⟨later, ascending⟩, -, -, allInPage⟩
          exact ⟨ascending, later, allInPage⟩
      · refine iff_of_false ?_ fun fits => isRefused ⟨fits.2.1.1, fits.2.2.1⟩
        rintro ⟨next, placed⟩
        rw [isError] at placed
        cases placed

/-- Strings in the order of their ids are placed if they can be placed together. -/
theorem exists_placeStrings_sorted_iff
    (sorted : texts.Pairwise fun first second => first.1 ≤ second.1) :
    (∃ next, result (placeStrings texts) {} = .ok next) ↔ Placeable texts := by
  have inOrder : (texts.Pairwise fun first second => (ofText first).stop ≤ second.1) ↔
      (texts.map ofText).Pairwise Apart := by
    rw [List.pairwise_map]
    constructor
    · intro ascending
      exact (sorted.and ascending).imp fun both => (apart_ofText_iff both.1).mpr both.2
    · intro apart
      exact (sorted.and apart).imp fun both => (apart_ofText_iff both.1).mp both.2
  rw [exists_placeStrings_eq_ok_iff, inOrder]
  constructor
  · rintro ⟨apart, -, inPage⟩
    exact ⟨apart, inPage⟩
  · rintro ⟨apart, inPage⟩
    exact ⟨apart, fun _ _ => Nat.zero_le _, inPage⟩

/-! ## The order of the strings -/

/-- Two strings cannot have one id. -/
theorem placeStrings_twice
    (table : StringTable)
    (id : Nat)
    (first second : String)
    (rest : List (Nat × String)) :
    result (placeStrings ((id, first) :: (id, second) :: rest)) table =
      .error (.malformed (.stringOverlap id)) := by
  rw [result_placeStrings_cons]
  rcases table.result_place_eq_or id first with ⟨⟨notBefore, -⟩, isPlaced⟩ | ⟨-, isError⟩
  · rw [isPlaced]
    change result (placeStrings ((id, second) :: rest)) (table.store id first) = _
    rcases (table.store id first).result_place_eq_or id second with ⟨⟨behind, -⟩, -⟩ | ⟨-, isError⟩
    · rw [Stored.size_data_store notBefore] at behind
      exact absurd behind (Nat.not_le.mpr (Nat.lt_add_of_pos_right (Nat.succ_pos _)))
    · rw [result_placeStrings_cons, isError]
      rfl
  · rw [isError]
    rfl

theorem placeStrings_of_mem
    {id : Nat} {first second : String} {rest : List (Nat × String)}
    (sorted : ((id, first) :: rest).Pairwise fun first second => first.1 ≤ second.1)
    (member : (id, second) ∈ rest)
    (table : StringTable) :
    result (placeStrings ((id, first) :: rest)) table =
      .error (.malformed (.stringOverlap id)) := by
  obtain ⟨least, restSorted⟩ := List.pairwise_cons.mp sorted
  cases rest with
  | nil => cases member
  | cons next others =>
      obtain ⟨nextId, value⟩ := next
      have notBefore : id ≤ nextId := least _ List.mem_cons_self
      have notAfter : nextId ≤ id := by
        rcases List.mem_cons.mp member with same | inOthers
        · cases same
          exact Nat.le_refl _
        · exact (List.pairwise_cons.mp restSorted).1 _ inOthers
      obtain rfl := Nat.le_antisymm notBefore notAfter
      exact placeStrings_twice table id first value others

/-- Strings in the order of their ids are placed alike, whichever comes first of those with one
id: there placing fails with this id. -/
theorem placeStrings_perm
    {others : List (Nat × String)}
    (permuted : texts.Perm others)
    (sorted : texts.Pairwise fun first second => first.1 ≤ second.1)
    (othersSorted : others.Pairwise fun first second => first.1 ≤ second.1)
    (table : StringTable) :
    result (placeStrings texts) table = result (placeStrings others) table := by
  induction texts generalizing others table with
  | nil => rw [List.nil_perm.mp permuted]
  | cons text rest ih =>
      cases others with
      | nil => cases List.perm_nil.mp permuted
      | cons other remaining =>
          by_cases same : text = other
          · subst same
            rw [result_placeStrings_cons, result_placeStrings_cons]
            refine bind_congr fun next => ?_
            exact ih permuted.cons_inv (List.pairwise_cons.mp sorted).2
              (List.pairwise_cons.mp othersSorted).2 next
          · have inRest : other ∈ rest :=
              (List.mem_cons.mp (permuted.mem_iff.mpr List.mem_cons_self)).resolve_left
                (Ne.symm same)
            have inRemaining : text ∈ remaining :=
              (List.mem_cons.mp (permuted.mem_iff.mp List.mem_cons_self)).resolve_left same
            obtain ⟨id, value⟩ := text
            obtain ⟨otherId, otherValue⟩ := other
            have notAfter : id ≤ otherId := (List.pairwise_cons.mp sorted).1 _ inRest
            have notBefore : otherId ≤ id := (List.pairwise_cons.mp othersSorted).1 _ inRemaining
            obtain rfl := Nat.le_antisymm notAfter notBefore
            rw [placeStrings_of_mem sorted inRest, placeStrings_of_mem othersSorted inRemaining]

/-! ## String pages -/

/-- Strings that all have an id still do in another order. -/
theorem exists_textEntry_of_perm
    {entries : List StringEntry}
    (permuted : entries.Perm (texts.map textEntry)) :
    ∃ others : List (Nat × String), entries = others.map textEntry ∧ others.Perm texts := by
  induction texts generalizing entries with
  | nil => exact ⟨[], List.perm_nil.mp permuted, .nil⟩
  | cons text rest ih =>
      obtain ⟨before, after, rfl⟩ :=
        List.append_of_mem (permuted.mem_iff.mpr List.mem_cons_self)
      have remaining : (before ++ after).Perm (rest.map textEntry) :=
        (List.perm_middle.symm.trans permuted).cons_inv
      obtain ⟨others, isOthers, othersPermuted⟩ := ih remaining
      obtain ⟨first, second, rfl, rfl, rfl⟩ := List.append_eq_map_iff.mp isOthers
      refine ⟨first ++ text :: second, by simp, ?_⟩
      exact List.perm_middle.trans (othersPermuted.cons text)

/-- What becomes of strings that all have an id. -/
structure PlacesTexts (config : Config) (texts : List (Nat × String)) : Prop where
  /-- They are placed exactly if they can be placed together. -/
  placed_iff : (∃ pages, stringPages config = .ok pages) ↔ Placeable texts
  /-- The pages are those of a segment that holds them. -/
  holds : ∀ pages, stringPages config = .ok pages →
    ∃ segment, pages = .ofArray segment ∧ HoldsTexts segment texts config.stringsLength
  /-- The order in which they are listed does not matter. -/
  order : ∀ entries, entries.Perm config.strings →
    stringPages { config with strings := entries } = stringPages config

theorem placesTexts_of_textEntry
    (config : Config)
    (texts : List (Nat × String))
    (isListed : config.strings = texts.map textEntry) :
    PlacesTexts config texts where
  placed_iff := by
    have permuted := sortByKey_perm Prod.fst texts
    rw [stringPages_textEntry isListed, exists_map_eq_ok_iff,
      exists_placeStrings_sorted_iff (sortByKey_sorted Prod.fst texts)]
    exact ⟨.perm permuted, .perm permuted.symm⟩
  holds pages isPages := by
    rw [stringPages_textEntry isListed, map_eq_ok_iff] at isPages
    obtain ⟨table, isTable, rfl⟩ := isPages
    have stored := (stored_placeStrings isTable).perm (sortByKey_perm Prod.fst texts)
    exact ⟨zeroExtend table.data config.stringsLength, rfl, stored.holdsTexts _⟩
  order entries permuted := by
    rw [isListed] at permuted
    obtain ⟨others, rfl, othersPermuted⟩ := exists_textEntry_of_perm permuted
    have sameOrder := (sortByKey_perm Prod.fst others).trans
      (othersPermuted.trans (sortByKey_perm Prod.fst texts).symm)
    rw [stringPages_textEntry isListed, stringPages_textEntry rfl,
      placeStrings_perm sameOrder (sortByKey_sorted _ _) (sortByKey_sorted _ _)]

/-- Two strings that touch, the second one first, in a longer segment. -/
theorem placesTexts_touching :
    let config : Config :=
      { name := "touching", strings := [⟨some 3, "c"⟩, ⟨some 0, "ab"⟩], stringsLength := 6 }
    config.strings = [(3, "c"), (0, "ab")].map textEntry ∧
      PlacesTexts config [(3, "c"), (0, "ab")] ∧
      stringPages config = .ok (.ofArray #[97, 98, 0, 99, 0, 0]) :=
  ⟨rfl, placesTexts_of_textEntry _ _ rfl, rfl⟩

end Listing
end ScriptBytecode
