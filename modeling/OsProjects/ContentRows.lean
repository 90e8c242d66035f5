import OsProjects.ContentIndex

/-! # The rows of the content file

`content_init` takes its rows from the file with `fgets`, and takes the last character out of each
of them, whether or not it is a newline.

* `lines_joined` — the lines of a file of rows, with or without a newline behind the last one.
* `fgetsCalls_room` — every `fgets` writes into an item that is allocated.
* `readsRows_iff` — the files of rows that are read as they are written: those with a newline behind
  the last row, as long as the capacity is an `int`. -/

namespace OsProjects.ContentIndex

/-- `MAX_KEYLEN`. -/
def maxKeylen : ℕ := 256

/-- `fgets` of at most `n - 1` characters: the line, and the rest of the file. -/
def fgets (n : ℕ) (file : List Byte) : Option (List Byte × List Byte) :=
  if file = [] then none
  else
    let window := file.take (n - 1)
    let line :=
      match window.dropWhile (· ≠ 10) with
      | [] => window
      | _ :: _ => window.takeWhile (· ≠ 10) ++ [10]
    some (line, file.drop line.length)

/-- The lines that at most so many calls of `fgets` give. -/
def linesLoop : ℕ → List Byte → List (List Byte)
  | 0, _ => []
  | calls + 1, file =>
      match fgets maxKeylen file with
      | none => []
      | some (line, rest) => line :: linesLoop calls rest

/-- What `open` answers, which refuses a null pointer. -/
def openPath (openFile : List Byte → ℤ) : Option (List Byte) → ℤ
  | none => -1
  | some path => openFile path

/-- The rows of a file; every call of `open` has an answer of its own. -/
def rowsOf (openFile : ℕ → List Byte → ℤ) (file : List Byte) : List Row :=
  (linesLoop file.length file).mapIdx fun i line => ⟨line, openPath (openFile i)⟩

/-- The paths given to `open`, up to the first that is refused. -/
def opened : List Row → List (Option (List Byte))
  | [] => []
  | r :: rows => r.path :: if r.item.fildes < 0 then [] else opened rows

/-- `nitems` and `capacity` at every call of `fgets`, the one at the end of the file included. -/
def fgetsCalls (capacity nitems : ℕ) : List Row → List (ℕ × ℕ)
  | [] => [(nitems, capacity)]
  | r :: rows =>
      (nitems, capacity) ::
        if r.item.fildes < 0 then []
        else fgetsCalls (if nitems + 1 = capacity then capacity * 2 else capacity) (nitems + 1) rows

/-! ### Files of rows -/

/-- A key and its path. -/
structure Entry where
  key : List Byte
  path : List Byte
deriving DecidableEq, Repr

/-- The row of an entry. -/
def Entry.row (e : Entry) : List Byte := e.key ++ 32 :: e.path

/-- What the entry is in `items`. -/
def Entry.item (openFile : List Byte → ℤ) (e : Entry) : Item := ⟨openFile e.path, e.key⟩

/-- What the entries are in `items`, opened in their order. -/
def itemsOf (openFile : ℕ → List Byte → ℤ) (entries : List Entry) : List Item :=
  entries.mapIdx fun i e => e.item (openFile i)

/-- Neither empty, nor with a blank, a tab, a newline or a NUL, and a row of less than 255 bytes. -/
structure Entry.Plain (e : Entry) : Prop where
  key_ne_nil : e.key ≠ []
  path_ne_nil : e.path ≠ []
  key_mem : ∀ b ∈ e.key, b ∉ [0, 9, 10, 32]
  path_mem : ∀ b ∈ e.path, b ∉ [0, 9, 10, 32]
  short : e.row.length < 255

/-- The rows joined by newlines, with or without a newline behind the last one. -/
def joined (newline : Bool) : List (List Byte) → List Byte
  | [] => []
  | [row] => row ++ if newline then [10] else []
  | row :: rows => row ++ 10 :: joined newline rows

/-- The file is read as it is written: the paths of the entries are opened, in order, the items are
the entries with their descriptors, and every `fgets` has an allocated item. -/
structure ReadsRows (qsort : List Item → List Item) (openFile : ℕ → List Byte → ℤ)
    (entries : List Entry) (file : List Byte) : Prop where
  paths : opened (rowsOf openFile file) = entries.map fun e => some e.path
  items : ∃ items, contentInit qsort (rowsOf openFile file) = some (.ready items) ∧
    items.Perm (itemsOf openFile entries)
  room : ∀ call ∈ fgetsCalls 16 0 (rowsOf openFile file), call.1 < call.2

/-! ### The lines -/

section lines
variable {row rest : List Byte}

theorem fgets_newline (hrow : 10 ∉ row) (hshort : row.length < 255) (rest : List Byte) :
    fgets maxKeylen (row ++ 10 :: rest) = some (row ++ [10], rest) := by
  have hwindow : (row ++ 10 :: rest).take 255 = row ++ 10 :: rest.take (254 - row.length) := by
    obtain ⟨k, hk⟩ := Nat.exists_eq_add_of_lt hshort
    rw [hk, List.take_append, List.take_of_length_le (by omega)]
    have hleft : row.length + k + 1 - row.length = k + 1 := by omega
    have hrest : 254 - row.length = k := by omega
    rw [hleft, List.take_succ_cons, hrest]
  have hpos : ∀ b ∈ row, decide (b ≠ 10) = true := by
    intro b hb
    exact decide_eq_true fun h => hrow (h ▸ hb)
  have hscan := scan_append (P := fun b : Byte => decide (b ≠ 10)) row
    (10 :: rest.take (254 - row.length)) (by simp)
  rw [List.takeWhile_eq_self_iff.mpr hpos, List.dropWhile_eq_nil_iff.mpr hpos,
    List.nil_append] at hscan
  unfold fgets maxKeylen
  rw [if_neg (List.append_ne_nil_of_right_ne_nil row (List.cons_ne_nil 10 rest))]
  dsimp only
  rw [hwindow, hscan.1, hscan.2]
  dsimp only
  have hsplit : row ++ 10 :: rest = (row ++ [10]) ++ rest := List.append_cons row 10 rest
  rw [hsplit, List.drop_left]

theorem fgets_last (hne : row ≠ []) (hrow : 10 ∉ row) (hshort : row.length < 255) :
    fgets maxKeylen row = some (row, []) := by
  have hpos : ∀ b ∈ row, decide (b ≠ 10) = true := by
    intro b hb
    exact decide_eq_true fun h => hrow (h ▸ hb)
  unfold fgets maxKeylen
  rw [if_neg hne]
  dsimp only
  rw [List.take_of_length_le (by omega), List.dropWhile_eq_nil_iff.mpr hpos]
  dsimp only
  rw [List.drop_length]

/-- The rows with what ends them. -/
def withEnds (newline : Bool) : List (List Byte) → List (List Byte)
  | [] => []
  | [row] => [row ++ if newline then [10] else []]
  | row :: rows => (row ++ [10]) :: withEnds newline rows

theorem linesLoop_nil (calls : ℕ) : linesLoop calls [] = [] := by
  cases calls with
  | zero => rfl
  | succ calls => rfl

theorem linesLoop_joined (newline : Bool) {rows : List (List Byte)} {calls : ℕ}
    (hrows : ∀ row ∈ rows, row ≠ [] ∧ 10 ∉ row ∧ row.length < 255) (hcalls : rows.length ≤ calls) :
    linesLoop calls (joined newline rows) = withEnds newline rows := by
  induction rows generalizing calls with
  | nil => exact linesLoop_nil calls
  | cons row rows ih =>
      obtain ⟨⟨hne, hmem, hshort⟩, hrest⟩ := List.forall_mem_cons.mp hrows
      obtain ⟨calls, rfl⟩ : ∃ k, calls = k + 1 := ⟨calls - 1, by simp at hcalls; omega⟩
      cases rows with
      | nil =>
          cases newline with
          | true =>
              have hjoined : joined true [row] = row ++ 10 :: [] := rfl
              rw [linesLoop, hjoined, fgets_newline hmem hshort]
              dsimp only
              rw [linesLoop_nil]
              rfl
          | false =>
              have hjoined : joined false [row] = row := List.append_nil row
              rw [linesLoop, hjoined, fgets_last hne hmem hshort]
              dsimp only
              rw [linesLoop_nil, withEnds]
              exact congrArg (fun line => [line]) (List.append_nil row).symm
      | cons next rows =>
          have hjoined : joined newline (row :: next :: rows) =
            row ++ 10 :: joined newline (next :: rows) := rfl
          rw [linesLoop, hjoined, fgets_newline hmem hshort]
          dsimp only
          rw [ih hrest (by simpa using hcalls)]
          rfl

theorem length_le_joined (newline : Bool) {rows : List (List Byte)}
    (hrows : ∀ row ∈ rows, row ≠ []) : rows.length ≤ (joined newline rows).length := by
  induction rows with
  | nil => exact le_refl 0
  | cons row rows ih =>
      obtain ⟨hne, hrest⟩ := List.forall_mem_cons.mp hrows
      have hpos := List.length_pos_of_ne_nil hne
      cases rows with
      | nil =>
          rw [joined, List.length_append, List.length_singleton]
          omega
      | cons next rows =>
          have hle := ih hrest
          have hjoined : joined newline (row :: next :: rows) =
            row ++ 10 :: joined newline (next :: rows) := rfl
          simp only [hjoined, List.length_append, List.length_cons] at hle ⊢
          omega

/-- **The lines of a file of rows.** -/
theorem lines_joined (newline : Bool) {rows : List (List Byte)}
    (hrows : ∀ row ∈ rows, row ≠ [] ∧ 10 ∉ row ∧ row.length < 255) :
    linesLoop (joined newline rows).length (joined newline rows) = withEnds newline rows :=
  linesLoop_joined newline hrows (length_le_joined newline fun row hrow => (hrows row hrow).1)

end lines

/-! ### The entries -/

section entries
variable {e : Entry} {openFile : List Byte → ℤ}

theorem Entry.Plain.row_ne_nil (h : e.Plain) : e.row ≠ [] :=
  List.append_ne_nil_of_left_ne_nil h.key_ne_nil _

theorem Entry.Plain.mem_row (h : e.Plain) : ∀ b ∈ e.row, b ∉ [0, 9, 10] := by
  intro b hb
  obtain hb | hb := List.mem_append.mp hb
  · exact fun hmem => h.key_mem b hb (by simp only [List.mem_cons] at hmem ⊢; tauto)
  · obtain rfl | hb := List.mem_cons.mp hb
    · decide
    · exact fun hmem => h.path_mem b hb (by simp only [List.mem_cons] at hmem ⊢; tauto)

/-- `strsep` on a string that has no delimiter, and on one that has. -/
theorem strsep_end {s : List Byte} (hs : ∀ b ∈ s, b ∉ str " \t") :
    strsep (str " \t") (some s) = (some s, none) := by
  have hpos : ∀ b ∈ s, decide (b ∉ str " \t") = true := fun b hb => decide_eq_true (hs b hb)
  unfold strsep
  dsimp only
  rw [List.takeWhile_eq_self_iff.mpr hpos, List.dropWhile_eq_nil_iff.mpr hpos]

theorem strsep_blank {s : List Byte} (hs : ∀ b ∈ s, b ∉ str " \t") (rest : List Byte) :
    strsep (str " \t") (some (s ++ 32 :: rest)) = (some s, some rest) := by
  have hpos : ∀ b ∈ s, decide (b ∉ str " \t") = true := fun b hb => decide_eq_true (hs b hb)
  have hblank : ∀ b ∈ (32 :: rest).head?, decide (b ∉ str " \t") = false := by
    intro b hb
    obtain rfl := Option.some.inj hb
    decide
  have hscan := scan_append (P := fun b : Byte => decide (b ∉ str " \t")) s (32 :: rest) hblank
  rw [List.takeWhile_eq_self_iff.mpr hpos, List.dropWhile_eq_nil_iff.mpr hpos,
    List.nil_append] at hscan
  unfold strsep
  dsimp only
  rw [hscan.1, hscan.2]

/-- A line whose string without its last character is a key and a path. -/
theorem row_parts {r : Row} {key path : List Byte} (htext : r.text = key ++ 32 :: path)
    (hkey : ∀ b ∈ key, b ∉ str " \t") (hpath : ∀ b ∈ path, b ∉ str " \t") :
    r.key = key ∧ r.path = some path := by
  unfold Row.key Row.path
  rw [htext, strsep_blank hkey, strsep_end hpath]
  exact ⟨rfl, rfl⟩

theorem Entry.Plain.delims (h : e.Plain) :
    (∀ b ∈ e.key, b ∉ str " \t") ∧ ∀ b ∈ e.path, b ∉ str " \t" := by
  have hdelims : str " \t" = [32, 9] := by decide
  rw [hdelims]
  constructor
  · exact fun b hb hmem => h.key_mem b hb (by simp only [List.mem_cons] at hmem ⊢; tauto)
  · exact fun b hb hmem => h.path_mem b hb (by simp only [List.mem_cons] at hmem ⊢; tauto)

theorem Entry.Plain.newline_item (h : e.Plain) {r : Row} (hline : r.line = e.row ++ [10]) :
    r.key = e.key ∧ r.path = some e.path := by
  obtain ⟨hkey, hpath⟩ := h.delims
  refine row_parts ?_ hkey hpath
  have h0 : (0 : Byte) ∉ e.row ++ [10] := by
    intro hmem
    obtain hmem | hmem := List.mem_append.mp hmem
    · exact h.mem_row 0 hmem (by decide)
    · exact absurd hmem (by decide)
  rw [Row.text, hline, cstr_of_notMem h0, List.dropLast_concat]
  rfl

/-- A row without a newline loses the last byte of its path. -/
theorem Entry.Plain.last_item (h : e.Plain) {r : Row} (hline : r.line = e.row) :
    r.key = e.key ∧ r.path = some e.path.dropLast := by
  obtain ⟨hkey, hpath⟩ := h.delims
  refine row_parts ?_ hkey fun b hb => hpath b (List.dropLast_subset _ hb)
  have h0 : (0 : Byte) ∉ e.row := fun hmem => h.mem_row 0 hmem (by decide)
  rw [Row.text, hline, cstr_of_notMem h0, Entry.row, List.dropLast_append_cons]
  congr 1
  exact List.dropLast_cons_of_ne_nil h.path_ne_nil

end entries

/-! ### The loop -/

section loop
variable {openFile : ℕ → List Byte → ℤ} {entries : List Entry} {rows : List Row}

theorem opened_prefix (rows : List Row) : opened rows <+: rows.map Row.path := by
  induction rows with
  | nil => exact List.prefix_rfl
  | cons r rows ih =>
      rw [opened, List.map_cons, List.cons_prefix_cons]
      refine ⟨rfl, ?_⟩
      split
      · exact List.nil_prefix
      · exact ih

theorem opened_all (hopen : ∀ r ∈ rows, 0 ≤ r.item.fildes) : opened rows = rows.map Row.path := by
  induction rows with
  | nil => rfl
  | cons r rows ih =>
      obtain ⟨hr, hrest⟩ := List.forall_mem_cons.mp hopen
      rw [opened, if_neg (not_lt.mpr hr), ih hrest, List.map_cons]

/-- **Every `fgets` has an item**: the capacity grows before it is reached. -/
theorem fgetsCalls_room {capacity nitems : ℕ} (hroom : nitems < capacity) (rows : List Row) :
    ∀ call ∈ fgetsCalls capacity nitems rows, call.1 < call.2 := by
  induction rows generalizing capacity nitems with
  | nil =>
      intro call hcall
      rw [List.mem_singleton.mp hcall]
      exact hroom
  | cons r rows ih =>
      intro call hcall
      obtain rfl | hcall := List.mem_cons.mp hcall
      · exact hroom
      · split at hcall
        · cases hcall
        · split at hcall
          · exact ih (by omega) call hcall
          · exact ih (by omega) call hcall

theorem contentLoad_ne_exit (capacity : ℕ) (items : List Item)
    (hopen : ∀ r ∈ rows, 0 ≤ r.item.fildes) : contentLoad capacity items rows ≠ some .exit := by
  induction rows generalizing capacity items with
  | nil => simp [contentLoad]
  | cons r rows ih =>
      obtain ⟨hr, hrest⟩ := List.forall_mem_cons.mp hopen
      rw [contentLoad]
      split
      · simp
      · rw [if_neg (not_lt.mpr hr)]
        split
        · exact ih _ _ hrest
        · split
          · exact ih _ _ hrest
          · simp

/-- The capacity is a power of two, so there are less than `2 ^ 30` items. -/
theorem contentLoad_few {capacity k : ℕ} {items out : List Item} (hcapacity : capacity = 2 ^ k)
    (hk : k ≤ 30) (hroom : items.length < capacity)
    (h : contentLoad capacity items rows = some (.ready out)) : out.length < 2 ^ 30 := by
  have hle : capacity ≤ 2 ^ 30 := hcapacity ▸ Nat.pow_le_pow_right (by omega) hk
  induction rows generalizing capacity items k with
  | nil =>
      obtain rfl := Init.ready.inj (Option.some.inj h)
      omega
  | cons r rows ih =>
      have hlen : (items ++ [r.item]).length = items.length + 1 := by simp
      rw [contentLoad] at h
      split at h
      · cases h
      · split at h
        · cases h
        · split at h
          · exact ih hcapacity hk (by omega) h hle
          · split at h
            · next hdouble =>
                have hk' : k + 1 ≤ 30 := by
                  by_contra hbig
                  obtain rfl : k = 30 := by omega
                  omega
                have hcapacity' : capacity * 2 = 2 ^ (k + 1) := by rw [hcapacity, pow_succ]
                exact ih hcapacity' hk' (by omega) h
                  (hcapacity' ▸ Nat.pow_le_pow_right (by omega) hk')
            · cases h

theorem contentInit_ready {qsort : List Item → List Item} (hq : Sorts qsort)
    (hlines : ∀ r ∈ rows, cstr r.line ≠ []) (hopen : ∀ r ∈ rows, 0 ≤ r.item.fildes)
    (hmany : rows.length < 2 ^ 30) :
    ∃ items, contentInit qsort rows = some (.ready items) ∧ items.Perm (rows.map Row.item) := by
  have hload : ∃ out, contentLoad 16 [] rows = some (.ready out) := by
    have hne := contentLoad_ne_none (show ([] : List Item).length < 16 by decide) hlines (by simpa)
    have hexit := contentLoad_ne_exit 16 [] hopen
    cases hload : contentLoad 16 [] rows with
    | none => exact absurd hload hne
    | some init =>
        cases init with
        | exit => exact absurd hload hexit
        | ready out => exact ⟨out, rfl⟩
  obtain ⟨out, hload⟩ := hload
  have hinit : contentInit qsort rows = some (.ready (qsort out)) := by
    rw [contentInit, hload]
    rfl
  exact ⟨_, hinit, (contentInit_rows hq hinit).1⟩

/-- The rows of a file whose last row may have no newline. -/
theorem withEnds_concat (newline : Bool) (lines : List (List Byte)) (last : List Byte) :
    withEnds newline (lines ++ [last]) =
      lines.map (· ++ [10]) ++ [last ++ if newline then [10] else []] := by
  induction lines with
  | nil => rfl
  | cons line lines ih =>
      cases lines with
      | nil => rfl
      | cons next lines => exact congrArg (List.cons (line ++ [10])) ih

theorem withEnds_newline (lines : List (List Byte)) :
    withEnds true lines = lines.map (· ++ [10]) := by
  obtain rfl | ⟨front, last, rfl⟩ := lines.eq_nil_or_concat'
  · rfl
  · rw [withEnds_concat, List.map_append]
    rfl

theorem rowsOf_joined (hplain : ∀ e ∈ entries, e.Plain) (newline : Bool) :
    rowsOf openFile (joined newline (entries.map Entry.row)) =
      (withEnds newline (entries.map Entry.row)).mapIdx
        fun i line => ⟨line, openPath (openFile i)⟩ := by
  rw [rowsOf, lines_joined]
  intro row hrow
  obtain ⟨e, he, rfl⟩ := List.mem_map.mp hrow
  have h := hplain e he
  exact ⟨h.row_ne_nil, fun hmem => h.mem_row 10 hmem (by decide), h.short⟩

/-- With a newline behind the last row, the rows are the entries. -/
theorem rowsOf_newline (openFile : ℕ → List Byte → ℤ) (hplain : ∀ e ∈ entries, e.Plain) :
    (rowsOf openFile (joined true (entries.map Entry.row))).map Row.path =
        (entries.map fun e => some e.path) ∧
      (rowsOf openFile (joined true (entries.map Entry.row))).map Row.item =
        itemsOf openFile entries ∧
      ∀ r ∈ rowsOf openFile (joined true (entries.map Entry.row)), cstr r.line ≠ [] := by
  have hrows : ∀ i : ℕ, (rowsOf openFile (joined true (entries.map Entry.row)))[i]? =
      entries[i]?.map fun e => ⟨e.row ++ [10], openPath (openFile i)⟩ := by
    intro i
    rw [rowsOf_joined hplain, withEnds_newline, List.getElem?_mapIdx, List.getElem?_map,
      List.getElem?_map, Option.map_map, Option.map_map]
    rfl
  refine ⟨List.ext_getElem? fun i => ?_, List.ext_getElem? fun i => ?_, fun r hr => ?_⟩
  · rw [List.getElem?_map, hrows, List.getElem?_map, Option.map_map]
    refine Option.map_congr fun e he => ?_
    exact ((hplain e (List.mem_of_getElem? he)).newline_item rfl).2
  · rw [List.getElem?_map, hrows, itemsOf, List.getElem?_mapIdx, Option.map_map]
    refine Option.map_congr fun e he => ?_
    obtain ⟨hkey, hpath⟩ := (hplain e (List.mem_of_getElem? he)).newline_item
      (r := ⟨e.row ++ [10], openPath (openFile i)⟩) rfl
    rw [Function.comp_apply, Row.item, hkey, hpath]
    rfl
  · obtain ⟨i, hi⟩ := List.getElem?_of_mem hr
    rw [hrows] at hi
    obtain ⟨e, he, rfl⟩ := Option.map_eq_some_iff.mp hi
    have h := hplain e (List.mem_of_getElem? he)
    rw [cstr_append_of_notMem fun hmem => h.mem_row 0 hmem (by decide)]
    exact List.append_ne_nil_of_left_ne_nil h.row_ne_nil _

/-- The descriptors of the items are those that `open` has returned. -/
theorem fildes_nonneg (hopen : ∀ i e, entries[i]? = some e → 0 ≤ openFile i e.path) :
    ∀ item ∈ itemsOf openFile entries, 0 ≤ item.fildes := by
  intro item hitem
  obtain ⟨i, hi, rfl⟩ := List.mem_mapIdx.mp hitem
  exact hopen i _ (List.getElem?_eq_getElem hi)

theorem rowsOf_last (openFile : ℕ → List Byte → ℤ) {last : Entry}
    (hplain : ∀ e ∈ entries ++ [last], e.Plain) :
    ∃ paths, paths.length = entries.length ∧
      (rowsOf openFile (joined false ((entries ++ [last]).map Entry.row))).map Row.path =
        paths ++ [some last.path.dropLast] := by
  have hlast := hplain last (List.mem_append_right _ (List.mem_singleton_self _))
  rw [rowsOf_joined hplain, List.map_append, List.map_singleton, withEnds_concat,
    List.mapIdx_concat, List.map_append]
  refine ⟨_, ?_, congrArg (_ ++ [·]) ?_⟩
  · simp only [List.length_map, List.length_mapIdx]
  · exact (hlast.last_item (List.append_nil _)).2

end loop

/-- **The rows are read as they are written exactly if a newline ends the last one**, as long as the
capacity for them is an `int`. -/
theorem readsRows_iff (qsort : List Item → List Item) (hq : Sorts qsort)
    (openFile : ℕ → List Byte → ℤ) (entries : List Entry) (newline : Bool)
    (hplain : ∀ e ∈ entries, e.Plain)
    (hopen : ∀ i e, entries[i]? = some e → 0 ≤ openFile i e.path) :
    ReadsRows qsort openFile entries (joined newline (entries.map Entry.row)) ↔
      (newline = true ∨ entries = []) ∧ entries.length < 2 ^ 30 := by
  constructor
  · rintro ⟨hpaths, ⟨items, hinit, hperm⟩, _⟩
    constructor
    · by_contra hlast
      obtain ⟨hnewline, hne⟩ := not_or.mp hlast
      obtain ⟨front, last, rfl⟩ := entries.eq_nil_or_concat'.resolve_left hne
      rw [Bool.not_eq_true] at hnewline
      subst hnewline
      obtain ⟨paths, hlength, hrows⟩ := rowsOf_last openFile hplain
      have hprefix := opened_prefix
        (rowsOf openFile (joined false ((front ++ [last]).map Entry.row)))
      rw [hpaths, hrows, List.map_append, List.map_singleton] at hprefix
      have hsame := hprefix.eq_of_length (by simp [hlength])
      have hpath := (List.append_inj' hsame rfl).2
      have hcut : last.path.dropLast.length = last.path.length :=
        congrArg List.length (Option.some.inj (List.cons.inj hpath).1).symm
      have hpos := List.length_pos_of_ne_nil
        (hplain last (List.mem_append_right _ (List.mem_singleton_self _))).path_ne_nil
      rw [List.length_dropLast] at hcut
      omega
    · obtain ⟨init, hload, heq⟩ := Option.map_eq_some_iff.mp hinit
      cases init with
      | exit => cases heq
      | ready out =>
          obtain rfl := Init.ready.inj heq
          have hfew := contentLoad_few (k := 4) rfl (by omega) (by decide) hload
          have hlength := hperm.length_eq
          rw [(hq out).1.length_eq, itemsOf, List.length_mapIdx] at hlength
          omega
  · rintro ⟨hnewline, hmany⟩
    have hsame : joined newline (entries.map Entry.row) = joined true (entries.map Entry.row) := by
      obtain rfl | rfl := hnewline
      · rfl
      · rfl
    rw [hsame]
    obtain ⟨hpaths, hitems, hlines⟩ := rowsOf_newline openFile hplain
    have hfildes : ∀ r ∈ rowsOf openFile (joined true (entries.map Entry.row)),
        0 ≤ r.item.fildes := by
      intro r hr
      have hmem := List.mem_map_of_mem (f := Row.item) hr
      rw [hitems] at hmem
      exact fildes_nonneg hopen _ hmem
    have hlength : (rowsOf openFile (joined true (entries.map Entry.row))).length =
        entries.length := by
      rw [← List.length_map (f := Row.item), hitems, itemsOf, List.length_mapIdx]
    obtain ⟨items, hinit, hperm⟩ := contentInit_ready hq hlines hfildes (by omega)
    rw [hitems] at hperm
    refine ⟨?_, ⟨items, hinit, hperm⟩, fgetsCalls_room (by decide) _⟩
    rw [opened_all hfildes, hpaths]

/-- An entry, and a file of two. -/
def entryAX : Entry := ⟨str "/a", str "x"⟩

theorem plain_entryAX : entryAX.Plain where
  key_ne_nil := by decide
  path_ne_nil := by decide
  key_mem b hb := by
    have hall : entryAX.key.all (· ∉ [0, 9, 10, 32]) = true := by decide
    exact of_decide_eq_true (List.all_eq_true.mp hall b hb)
  path_mem b hb := by
    have hall : entryAX.path.all (· ∉ [0, 9, 10, 32]) = true := by decide
    exact of_decide_eq_true (List.all_eq_true.mp hall b hb)
  short := by decide

theorem readsRows_iff_two :
    ReadsRows mergeItems (fun i _ => i + 3) [entryAX, entryAX]
        (joined true ([entryAX, entryAX].map Entry.row)) ↔
      (true = true ∨ [entryAX, entryAX] = []) ∧ [entryAX, entryAX].length < 2 ^ 30 :=
  readsRows_iff mergeItems sorts_mergeItems (fun i _ => i + 3) [entryAX, entryAX] true
    (by
      intro e he
      obtain rfl | he := List.mem_cons.mp he
      · exact plain_entryAX
      · rw [List.mem_singleton.mp he]
        exact plain_entryAX)
    fun i _ _ => Int.natCast_nonneg (i + 3)

/-- One row without a newline: the empty path is opened. -/
theorem not_readsRows_last :
    ¬∀ (qsort : List Item → List Item) (openFile : ℕ → List Byte → ℤ) (entries : List Entry)
      (newline : Bool), Sorts qsort → (∀ e ∈ entries, e.Plain) →
        (∀ i e, entries[i]? = some e → 0 ≤ openFile i e.path) →
        ReadsRows qsort openFile entries (joined newline (entries.map Entry.row)) := by
  intro h
  have hreads := h mergeItems (fun i _ => i + 3) [entryAX] false sorts_mergeItems
    (fun e he => List.mem_singleton.mp he ▸ plain_entryAX) fun i _ _ => Int.natCast_nonneg (i + 3)
  exact absurd hreads.paths (by decide)

end OsProjects.ContentIndex
