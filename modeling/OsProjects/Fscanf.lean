import OsProjects.CString

/-! # Words of a file

`fscanf(file, "%s", buffer)` skips white space and reads up to the next one.

* `words` — the words of a text, said without `fscanf`: what stands between white space.
* `scanWords_eq` — calling `fscanf` until it returns `EOF` gives the words, in order. -/

namespace OsProjects

/-- A byte of a word. -/
def isGraph (b : Byte) : Bool := !isSpace b

/-- `fscanf(file, "%s", …)`: the word and the rest of the file, or `EOF`. -/
def scanWord (file : List Byte) : Option (List Byte × List Byte) :=
  match file.dropWhile isSpace with
  | [] => none
  | b :: rest => some ((b :: rest).takeWhile isGraph, (b :: rest).dropWhile isGraph)

/-- The words that at most so many calls read. -/
def scanWords : ℕ → List Byte → List (List Byte)
  | 0, _ => []
  | calls + 1, file =>
      match scanWord file with
      | none => []
      | some (word, rest) => word :: scanWords calls rest

/-- The words of a text. -/
def words (file : List Byte) : List (List Byte) := (file.splitOnP isSpace).filter (· ≠ [])

/-- The words of a text, as the strings that they are read as. -/
def tokens (file : List Byte) : List (List Byte) := (words file).map cstr

section words
variable {file blanks rest : List Byte} {w : List Byte}

theorem words_nil : words [] = [] := by
  unfold words
  rw [List.splitOnP_nil]
  rfl

theorem words_blank {b : Byte} (hb : isSpace b = true) (rest : List Byte) :
    words (b :: rest) = words rest := by
  unfold words
  rw [← List.nil_append (b :: rest), List.splitOnP_append_cons [] rest hb, List.splitOnP_nil,
    List.filter_append]
  rfl

theorem words_blanks (hblanks : ∀ b ∈ blanks, isSpace b = true) (rest : List Byte) :
    words (blanks ++ rest) = words rest := by
  induction blanks with
  | nil => rfl
  | cons b blanks ih =>
      obtain ⟨hb, hrest⟩ := List.forall_mem_cons.mp hblanks
      rw [List.cons_append, words_blank hb, ih hrest]

/-- A word with white space or the end of the file behind it. -/
theorem words_word (hne : w ≠ []) (hw : ∀ b ∈ w, isSpace b = false)
    (hrest : ∀ b ∈ rest.head?, isSpace b = true) : words (w ++ rest) = w :: words rest := by
  cases rest with
  | nil =>
      rw [List.append_nil, words_nil, words, List.splitOnP_eq_singleton hw]
      exact List.filter_cons_of_pos (decide_eq_true hne)
  | cons b rest =>
      have hb := hrest b rfl
      rw [words_blank hb, words, List.splitOnP_append_cons_of_forall_mem hw b hb]
      exact List.filter_cons_of_pos (decide_eq_true hne)

theorem scanWord_cases (file : List Byte) :
    (scanWord file = none ∧ words file = []) ∨
    ∃ w rest, scanWord file = some (w, rest) ∧ words file = w :: words rest ∧ w ≠ [] ∧
      rest.length < file.length := by
  have hsplit := List.takeWhile_append_dropWhile (p := isSpace) (l := file)
  have hblanks : ∀ b ∈ file.takeWhile isSpace, isSpace b = true :=
    fun b hb => List.mem_takeWhile_imp hb
  unfold scanWord
  cases hdrop : file.dropWhile isSpace with
  | nil =>
      refine .inl ⟨rfl, ?_⟩
      rw [← hsplit, hdrop, words_blanks hblanks, words_nil]
  | cons b rest =>
      have hb : isGraph b = true := by
        have hnot := List.head?_dropWhile_not isSpace file
        rw [hdrop] at hnot
        simpa [isGraph] using hnot
      have hword := List.takeWhile_append_dropWhile (p := isGraph) (l := b :: rest)
      have hne : (b :: rest).takeWhile isGraph ≠ [] := by
        rw [List.takeWhile_cons_of_pos hb]
        exact List.cons_ne_nil _ _
      refine .inr ⟨_, _, rfl, ?_, hne, ?_⟩
      · rw [← hsplit, hdrop, words_blanks hblanks]
        nth_rewrite 1 [← hword]
        refine words_word hne (fun c hc => ?_) fun c hc => ?_
        · have hgraph := List.mem_takeWhile_imp hc
          simpa [isGraph] using hgraph
        · have hnot := List.head?_dropWhile_not isGraph (b :: rest)
          rw [Option.mem_def] at hc
          rw [hc] at hnot
          simpa [isGraph] using hnot
      · have hfile := congrArg List.length hsplit
        have hpiece := congrArg List.length hword
        have hpos := List.length_pos_of_ne_nil hne
        rw [List.length_append] at hfile hpiece
        rw [hdrop] at hfile
        omega

/-- **`fscanf` reads the words**, if it is called often enough. -/
theorem scanWords_eq {calls : ℕ} (h : file.length ≤ calls) : scanWords calls file = words file := by
  induction calls generalizing file with
  | zero =>
      obtain rfl := List.length_eq_zero_iff.mp (Nat.le_zero.mp h)
      exact words_nil.symm
  | succ calls ih =>
      obtain ⟨hnone, hwords⟩ | ⟨w, rest, hsome, hwords, _, hlt⟩ := scanWord_cases file
      · rw [scanWords, hnone, hwords]
      · rw [scanWords, hsome, hwords]
        exact congrArg (w :: ·) (ih (by omega))

end words

end OsProjects
