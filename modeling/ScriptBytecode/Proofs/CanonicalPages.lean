import Mathlib.Algebra.Ring.Nat
import Mathlib.Data.List.Basic
import ScriptBytecode.Proofs.Paging

/-!
# Canonical pages

The pages of a canonical table are known from the number of their elements: how many there are and
how long each one is.  An index leads to the same element in the pages and in the joined array, so
the canonical tables are just those that an array is divided into.
-/

namespace ScriptBytecode
namespace Paged

variable {α : Type} {paged : Paged α} {front : List (Array α)} {last : Array α} {index : Nat}

theorem length_eq_sum (paged : Paged α) :
    paged.length = (paged.pages.toList.map Array.size).sum := by
  rw [length_eq_size_flatten, flatten, Array.size_flatten, ← Array.sum_toList, Array.toList_map]

variable (isPages : paged.pages.toList = front ++ [last])

include isPages

/-- The length of a table with full pages before the last one. -/
theorem length_of_full
    (full : ∀ page ∈ front, page.size = pageLength) :
    paged.length = front.length * pageLength + last.size := by
  rw [length_eq_sum, isPages, List.map_append, List.sum_append, List.map_congr_left full,
    List.map_const', List.sum_replicate_nat]
  simp

/-- The pages of a table, one of which is at an index. -/
theorem front_or_last
    {page : Array α}
    (found : paged.pages[index]? = some page) :
    index < front.length ∧ front[index]? = some page ∨ index = front.length ∧ page = last := by
  rw [← Array.getElem?_toList, isPages] at found
  rcases Nat.lt_or_ge index front.length with inFront | notInFront
  · rw [List.getElem?_append_left inFront] at found
    exact .inl ⟨inFront, found⟩
  · rw [List.getElem?_append_right notInFront, List.getElem?_singleton] at found
    split at found
    · cases found
      exact .inr ⟨by omega, rfl⟩
    · cases found

theorem getElem?_front
    (inFront : index < front.length) :
    paged.pages[index]? = some front[index] := by
  rw [← Array.getElem?_toList, isPages, List.getElem?_append_left inFront,
    List.getElem?_eq_getElem inFront]

theorem getElem?_last :
    paged.pages[front.length]? = some last := by
  rw [← Array.getElem?_toList, isPages, List.getElem?_concat_length]

theorem size_pages_eq :
    paged.pages.size = front.length + 1 := by
  rw [← Array.length_toList, isPages, List.length_append, List.length_singleton]

omit isPages

theorem Canonical.full
    (canonical : paged.Canonical)
    (isPages : paged.pages.toList = front ++ [last]) :
    (∀ page ∈ front, page.size = pageLength) ∧ 0 < last.size ∧ last.size ≤ pageLength := by
  have count := size_pages_eq isPages
  constructor
  · intro page member
    obtain ⟨index, inFront, rfl⟩ := List.mem_iff_getElem.mp member
    have isPage := canonical _ _ (getElem?_front isPages inFront)
    rwa [if_neg (by omega)] at isPage
  · have isLast := canonical _ _ (getElem?_last isPages)
    rwa [if_pos count.symm] at isLast

/-- A canonical table has the number of pages that its length takes. -/
theorem Canonical.size_pages (canonical : paged.Canonical) :
    paged.pages.size = pageCount paged.length := by
  rcases List.eq_nil_or_concat' paged.pages.toList with isEmpty | ⟨front, last, isPages⟩
  · rw [length_eq_sum, ← Array.length_toList, isEmpty]
    simp [pageCount, pageLength]
  · obtain ⟨full, notEmpty, notLonger⟩ := canonical.full isPages
    rw [length_of_full isPages full, size_pages_eq isPages]
    unfold pageCount pageLength at *
    omega

theorem Canonical.size_page
    (canonical : paged.Canonical)
    {page : Array α}
    (found : paged.pages[index]? = some page) :
    page.size = pageSize index paged.pages.size paged.length := by
  rcases List.eq_nil_or_concat' paged.pages.toList with isEmpty | ⟨front, last, isPages⟩
  · rw [← Array.getElem?_toList, isEmpty] at found
    cases found
  · obtain ⟨full, -⟩ := canonical.full isPages
    rw [length_of_full isPages full, size_pages_eq isPages, pageSize]
    obtain ⟨inFront, isPage⟩ | ⟨rfl, rfl⟩ := front_or_last isPages found
    · rw [if_neg (by omega)]
      exact full page (List.mem_of_getElem? isPage)
    · rw [if_pos rfl, Nat.add_sub_cancel_left]

/-- Pages with the sizes that go with a length make up a canonical table of that length. -/
theorem canonical_of_sizes
    {length : Nat}
    (count : paged.pages.size = pageCount length)
    (sizes : ∀ index page, paged.pages[index]? = some page →
      page.size = pageSize index paged.pages.size length) :
    paged.Canonical ∧ paged.length = length := by
  rcases List.eq_nil_or_concat' paged.pages.toList with isEmpty | ⟨front, last, isPages⟩
  · have noPages : paged.pages.size = 0 := by
      rw [← Array.length_toList, isEmpty]
      rfl
    have complete := le_pageCount_mul length
    rw [← count, noPages] at complete
    refine ⟨fun index page found => ?_, ?_⟩
    · rw [← Array.getElem?_toList, isEmpty] at found
      cases found
    · rw [length_eq_sum, isEmpty]
      exact (Nat.le_zero.mp (by omega)).symm
  · have lastSize := sizes _ _ (getElem?_last isPages)
    rw [size_pages_eq isPages, pageSize, if_pos rfl] at lastSize
    have needed := mul_lt_of_lt_pageCount (show front.length < pageCount length by
      rw [← count, size_pages_eq isPages]
      omega)
    have full : ∀ page ∈ front, page.size = pageLength := by
      intro page member
      obtain ⟨index, inFront, rfl⟩ := List.mem_iff_getElem.mp member
      have size := sizes _ _ (getElem?_front isPages inFront)
      rwa [size_pages_eq isPages, pageSize, if_neg (by omega)] at size
    have complete := le_pageCount_mul length
    rw [← count, size_pages_eq isPages, Nat.succ_mul] at complete
    refine ⟨fun index page found => ?_, ?_⟩
    · rw [size_pages_eq isPages]
      obtain ⟨inFront, isPage⟩ | ⟨rfl, rfl⟩ := front_or_last isPages found
      · rw [if_neg (by omega)]
        exact full page (List.mem_of_getElem? isPage)
      · rw [if_pos rfl]
        omega
    · rw [length_of_full isPages full]
      omega

/-- An array is divided into canonical pages. -/
theorem canonical_ofArray (elements : Array α) : (ofArray elements).Canonical := by
  have sizes : ∀ index page, (ofArray elements).pages[index]? = some page →
      page.size = pageSize index (ofArray elements).pages.size elements.size := by
    intro index page found
    rw [pageSize]
    split
    · rename_i isLast
      obtain ⟨inRange, rfl⟩ := getElem?_pages_ofArray found
      have complete := le_pageCount_mul elements.size
      rw [size_pages_ofArray] at isLast
      rw [← isLast] at complete
      rw [Array.size_extract, Nat.min_eq_right complete]
    · rename_i notLast
      obtain ⟨inRange, -⟩ := getElem?_pages_ofArray found
      rw [← size_pages_ofArray] at inRange
      exact size_page_ofArray found (by omega)
  exact (canonical_of_sizes (size_pages_ofArray elements) sizes).1

/-! ## Elements by their index -/

/-- In full pages before a last one, an index leads to the page and the place that it has among all
elements. -/
theorem getElem?_flatten_of_full
    (full : ∀ page ∈ front, page.size = pageLength)
    (notLonger : last.size ≤ pageLength)
    (index : Nat) :
    ((front ++ [last])[index / pageLength]?.bind fun page => page[index % pageLength]?) =
      ((front ++ [last]).map Array.toList).flatten[index]? := by
  induction front generalizing index with
  | nil =>
      rw [List.nil_append, List.map_singleton, List.flatten_singleton]
      rcases Nat.lt_or_ge index pageLength with inPage | behind
      · rw [Nat.div_eq_of_lt inPage, Nat.mod_eq_of_lt inPage, List.getElem?_cons_zero,
          Option.bind_some, Array.getElem?_toList]
      · have noPage : [last].length ≤ index / pageLength := Nat.div_pos behind pageLength_pos
        rw [List.getElem?_eq_none noPage, Option.bind_none,
          List.getElem?_eq_none (Nat.le_trans notLonger behind)]
  | cons page rest ih =>
      obtain ⟨fullHere, fullLater⟩ := List.forall_mem_cons.mp full
      rw [List.cons_append, List.map_cons, List.flatten_cons]
      rcases Nat.lt_or_ge index pageLength with inPage | behind
      · rw [Nat.div_eq_of_lt inPage, Nat.mod_eq_of_lt inPage, List.getElem?_cons_zero,
          Option.bind_some, List.getElem?_append_left (by rwa [Array.length_toList, fullHere]),
          Array.getElem?_toList]
      · obtain ⟨further, rfl⟩ := Nat.exists_eq_add_of_le behind
        rw [Nat.add_div_left further pageLength_pos, Nat.add_mod_left, List.getElem?_cons_succ,
          ih fullLater, List.getElem?_append_right (by
            rw [Array.length_toList, fullHere]
            exact behind), Array.length_toList, fullHere, Nat.add_sub_cancel_left]

/-- In canonical pages, the element at an index is the one at this index of the joined array. -/
theorem Canonical.get?_eq (canonical : paged.Canonical) (index : Nat) :
    paged.get? index = paged.flatten[index]? := by
  rw [get?, flatten, ← Array.getElem?_toList, ← Array.getElem?_toList, Array.toList_flatten]
  rcases List.eq_nil_or_concat' paged.pages.toList with isEmpty | ⟨front, last, isPages⟩
  · rw [isEmpty]
    rfl
  · obtain ⟨full, -, notLonger⟩ := canonical.full isPages
    rw [isPages]
    exact getElem?_flatten_of_full full notLonger index

theorem Canonical.size_le
    (canonical : paged.Canonical)
    {page : Array α}
    (found : paged.pages[index]? = some page) :
    page.size ≤ pageLength := by
  have isPage := canonical index page found
  split at isPage
  · exact isPage.2
  · exact Nat.le_of_eq isPage

/-- A page of a canonical table is a part of the joined array. -/
theorem Canonical.page_eq
    (canonical : paged.Canonical)
    {page : Array α}
    (found : paged.pages[index]? = some page) :
    page = paged.flatten.extract (index * pageLength) ((index + 1) * pageLength) := by
  have notLonger := canonical.size_le found
  apply Array.ext_getElem?
  intro offset
  rcases Nat.lt_or_ge offset pageLength with inPage | behind
  · have place : (index * pageLength + offset) / pageLength = index := by
      unfold pageLength at *
      omega
    have inside : (index * pageLength + offset) % pageLength = offset := by
      unfold pageLength at *
      omega
    have isElement := canonical.get?_eq (index * pageLength + offset)
    rw [get?, place, inside, found, Option.bind_some] at isElement
    rw [isElement, Array.getElem?_extract]
    split
    · rfl
    · rename_i outside
      rw [Array.getElem?_eq_none]
      rw [Nat.add_mul, Nat.one_mul] at outside
      omega
  · rw [Array.getElem?_eq_none (Nat.le_trans notLonger behind), Array.getElem?_eq_none]
    rw [Array.size_extract, Nat.add_mul]
    omega

/-- Canonical pages are the ones that their elements are divided into. -/
theorem Canonical.ofArray_flatten (canonical : paged.Canonical) :
    ofArray paged.flatten = paged := by
  have count : (ofArray paged.flatten).pages.size = paged.pages.size := by
    rw [size_pages_ofArray, canonical.size_pages, length_eq_size_flatten]
  refine congrArg Paged.mk (Array.ext count fun index inDivided inPages => ?_)
  obtain ⟨-, isPart⟩ := getElem?_pages_ofArray (Array.getElem?_eq_getElem inDivided)
  exact isPart.trans (canonical.page_eq (Array.getElem?_eq_getElem inPages)).symm

/-- Pages that an array is divided into without loss: as many as its length takes, each as long as
the arithmetic of pages says, so that all are full but the last, which is not empty.  Joined, they
are the array, and every index leads to its element. -/
structure Divides (elements : Array α) (paged : Paged α) : Prop where
  count : paged.pages.size = pageCount elements.size
  sizes : ∀ index page, paged.pages[index]? = some page →
    page.size = pageSize index (pageCount elements.size) elements.size
  full : ∀ index page, paged.pages[index]? = some page → index + 1 < paged.pages.size →
    page.size = pageLength
  notEmpty : ∀ page, paged.pages.back? = some page → 0 < page.size
  joined : paged.flatten = elements
  found : ∀ index, paged.get? index = elements[index]?

theorem divides_ofArray (elements : Array α) : Divides elements (ofArray elements) where
  count := size_pages_ofArray elements
  sizes index page found := by
    have size := (canonical_ofArray elements).size_page found
    rwa [size_pages_ofArray, length_eq_size_flatten, flatten_ofArray] at size
  full _ _ := size_page_ofArray
  notEmpty page isLast := by
    rw [Array.back?_eq_getElem?] at isLast
    have size := canonical_ofArray elements _ page isLast
    obtain ⟨inside, -⟩ := Array.getElem?_eq_some_iff.mp isLast
    rw [if_pos (by omega)] at size
    exact size.1
  joined := flatten_ofArray elements
  found index := by rw [(canonical_ofArray elements).get?_eq, flatten_ofArray]

/-- An array is divided into pages without loss, and the tables that come back when their pages are
joined and divided again are the canonical ones. -/
theorem ofArray_lossless (elements : Array α) (paged : Paged α) :
    Divides elements (ofArray elements) ∧ (ofArray paged.flatten = paged ↔ paged.Canonical) := by
  refine ⟨divides_ofArray elements, fun same => ?_, Canonical.ofArray_flatten⟩
  rw [← same]
  exact canonical_ofArray paged.flatten

end Paged
end ScriptBytecode
