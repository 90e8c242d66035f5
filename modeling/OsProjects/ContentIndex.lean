import OsProjects.CString
import OsProjects.CTypes
import OsProjects.SortedSearch
import Mathlib.Data.List.Lex

/-! # The content index

`content_init` and `content_get` of `proj1/getfile/content.c`.

* **Rows.** A row is a line as `fgets` gives it, with what `open` answers for the path in it; the
  key in `items` is the string at it.
* **Sorting.** `qsort` is given: a function on the rows loaded.  What is used of it is that its
  result is a permutation, sorted by `_itemcmp`.
* **Undefined behaviour.** `content_init` has no result where the end of an empty string is taken
  out, where it writes behind the capacity, or where the capacity exceeds an `int`; `content_get`
  where it reads outside of `items`.
* `contentInit_ne_none`, `contentInit_rows` — the rows are loaded without undefined behaviour, and
  the items are the rows in some order.
* `contentGet_finds` — the search ends, reads inside of `items`, and finds a row of the key exactly
  if there is one. -/

namespace OsProjects.ContentIndex

open SortedSearch

/-! ### Strings -/

/-- `strcmp`, of which only the sign is specified. -/
def strcmp : List Byte → List Byte → ℤ
  | [], [] => 0
  | [], _ :: _ => -1
  | _ :: _, [] => 1
  | a :: s, b :: t => if a = b then strcmp s t else if a.toNat < b.toNat then -1 else 1

/-- `strsep`: the string before the first delimiter, and the one behind it if there is one. -/
def strsep (delims : List Byte) : Option (List Byte) → Option (List Byte) × Option (List Byte)
  | none => (none, none)
  | some s =>
      (some (s.takeWhile fun b => b ∉ delims),
        match s.dropWhile fun b => b ∉ delims with
        | [] => none
        | _ :: behind => some behind)

/-! ### Loading -/

/-- `item_t`. -/
structure Item where
  fildes : ℤ
  key : List Byte
deriving DecidableEq, Repr

/-- A line of the file, and what `open` answers for its path. -/
structure Row where
  line : List Byte
  openPath : Option (List Byte) → ℤ

/-- The line without its last character. -/
def Row.text (r : Row) : List Byte := (cstr r.line).dropLast

def Row.key (r : Row) : List Byte := (strsep (str " \t") (some r.text)).1.getD []

/-- The path behind the key, or `NULL`. -/
def Row.path (r : Row) : Option (List Byte) :=
  (strsep (str " \t") (strsep (str " \t") (some r.text)).2).1

def Row.item (r : Row) : Item := ⟨r.openPath r.path, r.key⟩

/-- `_itemcmp`. -/
def itemcmp (a b : Item) : ℤ := strcmp a.key b.key

/-- How `content_init` ends. -/
inductive Init where
  | exit
  | ready (items : List Item)
deriving DecidableEq, Repr

/-- The loop of `content_init`, with the items so far in an array of `capacity`. -/
def contentLoad (capacity : ℕ) (items : List Item) : List Row → Option Init
  | [] => some (.ready items)
  | r :: rows =>
      if cstr r.line = [] ∨ capacity ≤ items.length then none
      else if r.item.fildes < 0 then some .exit
      else if items.length + 1 ≠ capacity then contentLoad capacity (items ++ [r.item]) rows
      else if capacity * 2 < 2 ^ 31 then contentLoad (capacity * 2) (items ++ [r.item]) rows
      else none

/-- `content_init` on a file that can be opened. -/
def contentInit (qsort : List Item → List Item) (rows : List Row) : Option Init :=
  (contentLoad 16 [] rows).map fun
    | .exit => .exit
    | .ready items => .ready (qsort items)

/-! ### Searching -/

/-- How `content_get` ends. -/
inductive Lookup where
  | outOfBounds
  | returned (fildes : ℤ)
deriving DecidableEq, Repr

/-- `items[i]`. -/
def itemAt (items : List Item) (i : ℤ) : Option Item := if i < 0 then none else items[i.toNat]?

/-- The loop of `content_get`, for so many rounds: none while it is still in it. -/
def searchLoop (items : List Item) (key : List Byte) : ℕ → ℤ → ℤ → Option Lookup
  | 0, _, _ => none
  | rounds + 1, lo, hi =>
      if lo ≤ hi then
        let mid := cInt (lo + cInt (hi - lo) / 2)
        match itemAt items mid with
        | none => some .outOfBounds
        | some item =>
            let cmp := strcmp key item.key
            if cmp < 0 then searchLoop items key rounds lo (cInt (mid - 1))
            else if 0 < cmp then searchLoop items key rounds (cInt (mid + 1)) hi
            else some (.returned item.fildes)
      else some (.returned (-1))

/-- `content_get`, for so many rounds of its loop. -/
def contentGet (items : List Item) (key : List Byte) (rounds : ℕ) : Option Lookup :=
  searchLoop items key rounds 0 (cInt (items.length - 1))

/-! ### The order of strings -/

/-- The bytes as numbers, whose lexicographic order `strcmp` decides. -/
def ords (s : List Byte) : List ℕ := s.map UInt8.toNat

theorem strcmp_spec (s t : List Byte) :
    (strcmp s t < 0 ↔ ords s < ords t) ∧ (0 < strcmp s t ↔ ords t < ords s) ∧
      (strcmp s t = 0 ↔ s = t) := by
  induction s generalizing t with
  | nil => cases t <;> simp [strcmp, ords]
  | cons a s ih =>
      cases t with
      | nil => simp [strcmp, ords]
      | cons b t =>
          simp only [strcmp, ords, List.map_cons, List.cons_lt_cons_iff]
          by_cases hab : a = b
          · subst hab
            simpa [ords] using ih t
          · have hne : a.toNat ≠ b.toNat := fun h => hab (UInt8.toNat_inj.mp h)
            rw [if_neg hab]
            by_cases hlt : a.toNat < b.toNat
            · rw [if_pos hlt]
              simp [hab, hlt]
              omega
            · rw [if_neg hlt]
              simp [hab, hlt]
              omega

theorem itemcmp_le_iff (a b : Item) : itemcmp a b ≤ 0 ↔ ords a.key ≤ ords b.key := by
  rw [← not_lt, ← not_lt, itemcmp, (strcmp_spec a.key b.key).2.1]

theorem sorted_strcmp {items : List Item} (h : items.Pairwise fun a b => itemcmp a b ≤ 0)
    (key : List Byte) : SortedSearch.Sorted (fun item => strcmp key item.key) items := by
  refine h.imp fun {a b} hab => ?_
  have hle := (itemcmp_le_iff a b).mp hab
  rw [(strcmp_spec key a.key).1, (strcmp_spec key b.key).1, (strcmp_spec key a.key).2.1,
    (strcmp_spec key b.key).2.1]
  exact ⟨fun hlt => hlt.trans_le hle, fun hlt => hle.trans_lt hlt⟩

/-! ### The rows loaded -/

section loading
variable {capacity : ℕ} {items out : List Item} {rows : List Row}

/-- The items loaded are the rows, none has a negative descriptor, and their number is an `int`. -/
theorem contentLoad_rows (hroom : items.length < capacity) (hcap : capacity < 2 ^ 31)
    (h : contentLoad capacity items rows = some (.ready out)) :
    out = items ++ rows.map Row.item ∧ (∀ r ∈ rows, 0 ≤ r.item.fildes) ∧ out.length < 2 ^ 31 := by
  induction rows generalizing capacity items with
  | nil =>
      obtain rfl := Init.ready.inj (Option.some.inj h)
      exact ⟨by simp, by simp, by omega⟩
  | cons r rows ih =>
      have hlen : (items ++ [r.item]).length = items.length + 1 := by simp
      -- both ways on, with and without `realloc`
      have hmore : ∀ c, (items ++ [r.item]).length < c → c < 2 ^ 31 → 0 ≤ r.item.fildes →
          contentLoad c (items ++ [r.item]) rows = some (.ready out) →
            out = items ++ (r :: rows).map Row.item ∧ (∀ q ∈ r :: rows, 0 ≤ q.item.fildes) ∧
              out.length < 2 ^ 31 := by
        intro c hc hc' hopen hload
        obtain ⟨hout, hrows, hlt⟩ := ih hc hc' hload
        refine ⟨by rw [hout, List.map_cons, List.append_assoc, List.singleton_append],
          fun q hq => ?_, hlt⟩
        obtain rfl | hq := List.mem_cons.mp hq
        · exact hopen
        · exact hrows q hq
      rw [contentLoad] at h
      split at h
      · cases h
      · split at h
        · cases h
        · next hopen =>
            split at h
            · exact hmore capacity (by omega) hcap (not_lt.mp hopen) h
            · split at h
              · next hdouble => exact hmore (capacity * 2) (by omega) hdouble (not_lt.mp hopen) h
              · cases h

theorem contentLoad_ne_none (hroom : items.length < capacity)
    (hrows : ∀ r ∈ rows, cstr r.line ≠ []) (hmany : items.length + rows.length < 2 ^ 30) :
    contentLoad capacity items rows ≠ none := by
  induction rows generalizing capacity items with
  | nil => simp [contentLoad]
  | cons r rows ih =>
      have hlen : (items ++ [r.item]).length = items.length + 1 := by simp
      have hline := hrows r List.mem_cons_self
      have hrest : ∀ q ∈ rows, cstr q.line ≠ [] := fun q hq => hrows q (List.mem_cons_of_mem _ hq)
      rw [List.length_cons] at hmany
      rw [contentLoad, if_neg (by rw [not_or]; exact ⟨hline, by omega⟩)]
      split
      · simp
      · split
        · exact ih (by omega) hrest (by omega)
        · rw [if_pos (by omega)]
          exact ih (by omega) hrest (by omega)

end loading

/-- `content_init` has a result if no line is an empty string and there are less than `2 ^ 30`. -/
theorem contentInit_ne_none (qsort : List Item → List Item) {rows : List Row}
    (hrows : ∀ r ∈ rows, cstr r.line ≠ []) (hmany : rows.length < 2 ^ 30) :
    contentInit qsort rows ≠ none := by
  have hload := contentLoad_ne_none (show ([] : List Item).length < 16 by decide) hrows
    (by simpa)
  rw [contentInit, ne_eq, Option.map_eq_none_iff]
  exact hload

/-- What the assumption on `qsort` says. -/
def Sorts (qsort : List Item → List Item) : Prop :=
  ∀ items, (qsort items).Perm items ∧ (qsort items).Pairwise fun a b => itemcmp a b ≤ 0

/-- The items of the index: sorted, and those of the rows. -/
theorem contentInit_rows {qsort : List Item → List Item} (hq : Sorts qsort) {rows : List Row}
    {items : List Item} (h : contentInit qsort rows = some (.ready items)) :
    items.Perm (rows.map Row.item) ∧ (items.Pairwise fun a b => itemcmp a b ≤ 0) ∧
      (∀ r ∈ rows, 0 ≤ r.item.fildes) ∧ items.length < 2 ^ 31 := by
  obtain ⟨init, hload, heq⟩ := Option.map_eq_some_iff.mp h
  cases init with
  | exit => cases heq
  | ready loaded =>
      obtain rfl := Init.ready.inj heq
      obtain ⟨hperm, hsorted⟩ := hq loaded
      obtain ⟨hrows, hopen, hlt⟩ := contentLoad_rows (by decide) (by decide) hload
      rw [List.nil_append] at hrows
      rw [← hrows]
      exact ⟨hperm, hsorted, hopen, by rwa [hperm.length_eq]⟩

/-! ### The search -/

section searching
variable {items : List Item} {key : List Byte} {lo hi : ℤ}

theorem itemAt_natCast (items : List Item) (i : ℕ) : itemAt items i = items[i]? := by
  rw [itemAt, if_neg (by omega), Int.toNat_natCast]

/-- What the search in a window finds, whatever the rounds beyond `n`. -/
def Finds (items : List Item) (key : List Byte) (n : ℕ) (lo hi : ℤ) : Prop :=
  ∃ v, (∀ rounds > n, searchLoop items key rounds lo hi = some (.returned v)) ∧
    ((∃ item ∈ items, item.key = key ∧ item.fildes = v) ∨
      v = -1 ∧ ∀ item ∈ items, item.key ≠ key)

theorem finds_empty (hw : Window (fun item => strcmp key item.key) items lo hi) (h : hi < lo)
    (n : ℕ) : Finds items key n lo hi := by
  refine ⟨-1, fun rounds hrounds => ?_, .inr ⟨rfl, fun item hitem heq => ?_⟩⟩
  · obtain ⟨k, rfl⟩ := Nat.exists_eq_add_of_lt hrounds
    rw [searchLoop, if_neg (by omega)]
  · exact hw.absent h hitem ((strcmp_spec key item.key).2.2.mpr heq.symm)

theorem searchLoop_round (key : List Byte) {i : ℕ} {item : Item} (hlo : 0 ≤ lo) (hhi : hi + 1 < 2 ^ 31) (hle : lo ≤ hi)
    (hmid : middle lo hi = i) (hitem : items[i]? = some item) (rounds : ℕ) :
    searchLoop items key (rounds + 1) lo hi =
      if strcmp key item.key < 0 then searchLoop items key rounds lo (i - 1)
      else if 0 < strcmp key item.key then searchLoop items key rounds (i + 1) hi
      else some (.returned item.fildes) := by
  have hge := le_middle hle
  have hgt := middle_le hle
  rw [hmid] at hge hgt
  have hdiff : cInt (hi - lo) = hi - lo := cInt_of_lt (by omega) (by omega)
  have hint : cInt (lo + (hi - lo) / 2) = i := by
    rw [show lo + (hi - lo) / 2 = (i : ℤ) from hmid]
    exact cInt_of_lt (by omega) (by omega)
  have hleft : cInt ((i : ℤ) - 1) = i - 1 := cInt_of_lt (by omega) (by omega)
  have hright : cInt ((i : ℤ) + 1) = i + 1 := cInt_of_lt (by omega) (by omega)
  rw [searchLoop, if_pos hle, hdiff, hint]
  dsimp only
  rw [itemAt_natCast, hitem, hleft, hright]

/-- From a window of at most `n` positions on, the search ends after `n` rounds. -/
theorem searchLoop_finds (hs : SortedSearch.Sorted (fun item => strcmp key item.key) items)
    (hlen : items.length < 2 ^ 31) (hw : Window (fun item => strcmp key item.key) items lo hi)
    {n : ℕ} (hn : hi - lo + 1 ≤ n) : Finds items key n lo hi := by
  induction n generalizing lo hi with
  | zero => exact finds_empty hw (by omega) 0
  | succ n ih =>
      by_cases hle : lo ≤ hi
      · have hlo := hw.nonneg
        have hhi := hw.inList
        obtain ⟨i, item, hmid, hitem⟩ := hw.middle hle
        have hge := le_middle hle
        have hgt := middle_le hle
        have hround := searchLoop_round key hlo (by omega) hle hmid hitem
        by_cases hneg : strcmp key item.key < 0
        · obtain ⟨v, hv, hfound⟩ := ih (hw.left hs hitem hneg) (by omega)
          refine ⟨v, fun rounds hrounds => ?_, hfound⟩
          obtain ⟨k, rfl⟩ := Nat.exists_eq_add_of_lt hrounds
          rw [hround, if_pos hneg]
          exact hv _ (by omega)
        · by_cases hpos : 0 < strcmp key item.key
          · obtain ⟨v, hv, hfound⟩ := ih (hw.right hs hitem hpos) (by omega)
            refine ⟨v, fun rounds hrounds => ?_, hfound⟩
            obtain ⟨k, rfl⟩ := Nat.exists_eq_add_of_lt hrounds
            rw [hround, if_neg hneg, if_pos hpos]
            exact hv _ (by omega)
          · have heq := (strcmp_spec key item.key).2.2.mp (by omega)
            refine ⟨item.fildes, fun rounds hrounds => ?_,
              .inl ⟨item, List.mem_of_getElem? hitem, heq.symm, rfl⟩⟩
            obtain ⟨k, rfl⟩ := Nat.exists_eq_add_of_lt hrounds
            rw [hround, if_neg hneg, if_neg hpos]
      · exact finds_empty hw (by omega) _

end searching

/-- **Exactly the rows.** On the index of any rows, `content_get` ends after at most as many rounds
as there are rows, never reads outside of `items`, and returns the descriptor of a row with the key
if there is one; it returns `-1` exactly if there is none. -/
theorem contentGet_finds (qsort : List Item → List Item) (hq : Sorts qsort) (rows : List Row)
    (items : List Item) (h : contentInit qsort rows = some (.ready items)) (key : List Byte) :
    ∃ v, (∀ rounds > rows.length, contentGet items key rounds = some (.returned v)) ∧
      ((∃ r ∈ rows, r.key = key) → ∃ r ∈ rows, r.key = key ∧ r.openPath r.path = v) ∧
      (v = -1 ↔ ∀ r ∈ rows, r.key ≠ key) := by
  obtain ⟨hperm, hsorted, hopen, hlen⟩ := contentInit_rows hq h
  have hs := sorted_strcmp hsorted key
  have hnitems : cInt ((items.length : ℤ) - 1) = items.length - 1 :=
    cInt_of_lt (by omega) (by omega)
  have hrows : items.length = rows.length := by rw [hperm.length_eq, List.length_map]
  have hmem : ∀ item, item ∈ items ↔ ∃ r ∈ rows, r.item = item := fun item => by
    rw [hperm.mem_iff, List.mem_map]
  obtain ⟨v, hv, hfound⟩ := searchLoop_finds hs hlen (Window.whole _ items)
    (show (items.length : ℤ) - 1 - 0 + 1 ≤ rows.length by omega)
  refine ⟨v, fun rounds hrounds => ?_, ?_, ?_⟩
  · rw [contentGet, hnitems]
    exact hv rounds hrounds
  · rintro ⟨r, hr, hkey⟩
    obtain ⟨item, hitem, hitemkey, hfildes⟩ | ⟨_, hnone⟩ := hfound
    · obtain ⟨q, hq, rfl⟩ := (hmem item).mp hitem
      exact ⟨q, hq, hitemkey, hfildes⟩
    · exact absurd hkey (hnone r.item ((hmem _).mpr ⟨r, hr, rfl⟩))
  · obtain ⟨item, hitem, hitemkey, hfildes⟩ | ⟨hv, hnone⟩ := hfound
    · obtain ⟨q, hq, rfl⟩ := (hmem item).mp hitem
      have hpos := hopen q hq
      exact iff_of_false (by omega) fun hall => hall q hq hitemkey
    · exact iff_of_true hv fun r hr => hnone r.item ((hmem _).mpr ⟨r, hr, rfl⟩)

/-- Sorting by merging, which is one way to do what `qsort` does. -/
def mergeItems (items : List Item) : List Item := items.mergeSort fun a b => itemcmp a b ≤ 0

theorem sorts_mergeItems : Sorts mergeItems := by
  intro items
  refine ⟨List.mergeSort_perm _ _, ?_⟩
  have htrans : ∀ a b c : Item, decide (itemcmp a b ≤ 0) = true → decide (itemcmp b c ≤ 0) = true →
      decide (itemcmp a c ≤ 0) = true := by
    intro a b c hab hbc
    rw [decide_eq_true_eq, itemcmp_le_iff] at hab hbc ⊢
    exact hab.trans hbc
  have htotal : ∀ a b : Item, (decide (itemcmp a b ≤ 0) || decide (itemcmp b a ≤ 0)) = true := by
    intro a b
    rw [Bool.or_eq_true, decide_eq_true_eq, decide_eq_true_eq, itemcmp_le_iff, itemcmp_le_iff]
    exact le_total _ _
  exact (List.pairwise_mergeSort htrans htotal items).imp fun h => of_decide_eq_true h

/-- Two rows of one key and one of another. -/
def rowsThree : List Row :=
  [⟨str "/b x\n", fun _ => 5⟩, ⟨str "/a y\n", fun _ => 6⟩, ⟨str "/b z\n", fun _ => 7⟩]

theorem contentInit_three : contentInit mergeItems rowsThree =
    some (.ready (mergeItems [⟨5, str "/b"⟩, ⟨6, str "/a"⟩, ⟨7, str "/b"⟩])) := by
  have hload : contentLoad 16 [] rowsThree =
      some (.ready [⟨5, str "/b"⟩, ⟨6, str "/a"⟩, ⟨7, str "/b"⟩]) := by decide
  rw [contentInit, hload]
  rfl

theorem contentGet_finds_three : ∃ items v,
    contentInit mergeItems rowsThree = some (.ready items) ∧
    (∀ rounds > rowsThree.length, contentGet items (str "/b") rounds = some (.returned v)) ∧
    ((∃ r ∈ rowsThree, r.key = str "/b") →
      ∃ r ∈ rowsThree, r.key = str "/b" ∧ r.openPath r.path = v) ∧
    (v = -1 ↔ ∀ r ∈ rowsThree, r.key ≠ str "/b") := by
  obtain ⟨v, hv⟩ := contentGet_finds mergeItems sorts_mergeItems rowsThree _ contentInit_three
    (str "/b")
  exact ⟨_, v, contentInit_three, hv⟩

end OsProjects.ContentIndex
