import OsProjects.CString

/-! # The parent directories of a local file

`openFile` of `proj1/getfile/gfclient_download.c` cuts its path at every slash behind the first
character, calls `mkdir`, and puts the slash back, all in the caller's buffer.

* **Environment.** `results k` is what the `k`-th call of `mkdir` returns, with `errno` behind it,
  and `fopen` the result of `fopen` for a path, none for `NULL`.
* `Run` — the strings passed to `mkdir` and `fopen`, and the buffer in the end; there is no `ans`
  if the process has exited.
* `openLoop_eq_walk` — the loop goes through the slashes in order.
* `openFile_prepares` — the loop ends; `mkdir` is called for the parent directories in order, up to
  a failure other than `EEXIST`, and otherwise `fopen` for the path as it was given. -/

namespace OsProjects.OpenFile

variable {φ : Type*}

/-- A return value, and `errno`. -/
structure Result where
  returned : ℤ
  errno : ℤ
deriving DecidableEq, Repr

def EEXIST : ℤ := 17

/-- A failure other than `EEXIST`. -/
def Result.fatal (result : Result) : Prop := 0 > result.returned ∧ result.errno ≠ EEXIST

instance (result : Result) : Decidable result.fatal := inferInstanceAs (Decidable (_ ∧ _))

structure Run (φ : Type*) where
  mkdirs : List (List Byte)
  fopen : Option (List Byte)
  path : List Byte
  ans : Option φ
deriving DecidableEq, Repr

/-- `'/'`. -/
def slash : Byte := 47

/-- `strchr(&m[start], c)`, as an offset into `m`. -/
def strchr (m : List Byte) (start : ℕ) (c : Byte) : Option ℕ :=
  ((cstr (m.drop start)).findIdx? fun b => b = c).map (start + ·)

/-- The loop of `openFile`, for at most so many rounds, and what is behind it. -/
def openLoop (results : ℕ → Result) (fopen : List Byte → Option φ) :
    ℕ → List (List Byte) → List Byte → ℕ → Option (Run φ)
  | 0, _, _, _ => none
  | rounds + 1, mkdirs, path, prev =>
      match strchr path (prev + 1) slash with
      | none => some ⟨mkdirs, some (cstr path), path, fopen (cstr path)⟩
      | some cur =>
          let path := path.set cur 0
          let result := results mkdirs.length
          let mkdirs := mkdirs ++ [cstr path]
          if result.fatal then some ⟨mkdirs, none, path, none⟩
          else openLoop results fopen rounds mkdirs (path.set cur slash) cur

/-- `openFile`. -/
def openFile (results : ℕ → Result) (fopen : List Byte → Option φ) (rounds : ℕ)
    (path : List Byte) : Option (Run φ) :=
  openLoop results fopen rounds [] path 0

/-! ### What it is for -/

/-- The positions of the slashes from `start` on. -/
def slashesFrom (path : List Byte) (start : ℕ) : List ℕ :=
  (List.range' start (path.length - start)).filter fun i => path[i]? = some slash

/-- The parent directories of a path, the uppermost first. -/
def parents (path : List Byte) : List (List Byte) := (slashesFrom path 1).map path.take

/-- The parent directories are made until one cannot be; if all can be, the path is opened, and
stands in the buffer as before, with `rest` behind it. -/
structure Prepares (results : ℕ → Result) (fopen : List Byte → Option φ) (path rest : List Byte)
    (run : Run φ) : Prop where
  failing : ∀ k < (parents path).length, (results k).fatal → (∀ j < k, ¬(results j).fatal) →
    run.mkdirs = (parents path).take (k + 1) ∧ run.fopen = none ∧ run.ans = none
  clear : (∀ k < (parents path).length, ¬(results k).fatal) →
    run = ⟨parents path, some path, path ++ 0 :: rest, fopen path⟩

/-! ### The search for a slash -/

section search
variable {path rest : List Byte} {start i : ℕ}

theorem slashesFrom_nil (h : ∀ i, start ≤ i → path[i]? ≠ some slash) :
    slashesFrom path start = [] := by
  apply List.filter_eq_nil_iff.mpr
  intro i hi hslash
  exact h i (List.mem_range'_1.mp hi).1 (of_decide_eq_true hslash)

theorem slashesFrom_cons (hle : start ≤ i) (hat : path[i]? = some slash)
    (h : ∀ j, start ≤ j → j < i → path[j]? ≠ some slash) :
    slashesFrom path start = i :: slashesFrom path (i + 1) := by
  obtain ⟨hi, -⟩ := List.getElem?_eq_some_iff.mp hat
  have hsplit : List.range' start (path.length - start) =
      List.range' start (i - start) ++ i :: List.range' (i + 1) (path.length - (i + 1)) := by
    have hlength : path.length - start = i - start + (path.length - (i + 1) + 1) := by omega
    rw [hlength, ← List.range'_append_1, Nat.add_sub_cancel' hle, List.range'_succ]
  have hbefore : (List.range' start (i - start)).filter (fun j => path[j]? = some slash) = [] := by
    apply List.filter_eq_nil_iff.mpr
    intro j hj hslash
    obtain ⟨hle, hlt⟩ := List.mem_range'_1.mp hj
    exact h j hle (by omega) (of_decide_eq_true hslash)
  unfold slashesFrom
  rw [hsplit, List.filter_append, hbefore, List.nil_append]
  exact List.filter_cons_of_pos (decide_eq_true hat)

theorem strchr_cases (rest : List Byte) (h0 : 0 ∉ path) (hstart : start ≤ path.length) :
    (strchr (path ++ 0 :: rest) start slash = none ∧ slashesFrom path start = []) ∨
    ∃ i, strchr (path ++ 0 :: rest) start slash = some i ∧ path[i]? = some slash ∧
      slashesFrom path start = i :: slashesFrom path (i + 1) := by
  have hcstr : cstr ((path ++ 0 :: rest).drop start) = path.drop start := by
    rw [List.drop_append_of_le_length hstart, cstr_append_zero,
      cstr_of_notMem fun h => h0 (List.mem_of_mem_drop h)]
  have hdrop : ∀ i, start ≤ i → (path.drop start)[i - start]? = path[i]? := by
    intro i hle
    rw [List.getElem?_drop, Nat.add_sub_cancel' hle]
  unfold strchr
  rw [hcstr]
  cases hfind : (path.drop start).findIdx? fun b => b = slash with
  | none =>
      have hnone := List.findIdx?_eq_none_iff.mp hfind
      refine .inl ⟨rfl, slashesFrom_nil fun i hle hslash => ?_⟩
      rw [← hdrop i hle] at hslash
      exact of_decide_eq_false (hnone slash (List.mem_of_getElem? hslash)) rfl
  | some k =>
      obtain ⟨hk, hslash, hfirst⟩ := List.findIdx?_eq_some_iff_getElem.mp hfind
      have hat : path[start + k]? = some slash := by
        rw [← List.getElem?_drop, List.getElem?_eq_getElem hk, of_decide_eq_true hslash]
      refine .inr ⟨start + k, rfl, hat, slashesFrom_cons (Nat.le_add_right _ _) hat ?_⟩
      intro j hle hlt hslash
      rw [← hdrop j hle] at hslash
      obtain ⟨_, heq⟩ := List.getElem?_eq_some_iff.mp hslash
      exact hfirst (j - start) (by omega) (decide_eq_true heq)

theorem cstr_set (h0 : 0 ∉ path) (hi : i < path.length) :
    cstr ((path ++ 0 :: rest).set i 0) = path.take i := by
  rw [List.set_append_left _ _ hi, List.set_eq_take_append_cons_drop, if_pos hi, List.append_assoc,
    List.cons_append, cstr_append_zero, cstr_of_notMem fun h => h0 (List.mem_of_mem_take h)]

theorem set_slash (h : path[i]? = some slash) :
    ((path ++ 0 :: rest).set i 0).set i slash = path ++ 0 :: rest := by
  obtain ⟨hi, hslash⟩ := List.getElem?_eq_some_iff.mp h
  rw [List.set_set, List.set_append_left _ _ hi, ← hslash, List.set_getElem_self]

end search

/-! ### The loop -/

/-- The loop over the positions of the slashes that are left. -/
def walk (results : ℕ → Result) (fopen : List Byte → Option φ) (path rest : List Byte) :
    List (List Byte) → List ℕ → Run φ
  | mkdirs, [] => ⟨mkdirs, some path, path ++ 0 :: rest, fopen path⟩
  | mkdirs, i :: slashes =>
      if (results mkdirs.length).fatal then
        ⟨mkdirs ++ [path.take i], none, (path ++ 0 :: rest).set i 0, none⟩
      else walk results fopen path rest (mkdirs ++ [path.take i]) slashes

section loop
variable {results : ℕ → Result} {fopen : List Byte → Option φ} {path rest : List Byte}
  {prev rounds k : ℕ} {slashes : List ℕ}

/-- **The loop goes from slash to slash**, and ends behind the last one. -/
theorem openLoop_eq_walk (mkdirs : List (List Byte)) (h0 : 0 ∉ path) (hprev : prev < path.length)
    (hrounds : (slashesFrom path (prev + 1)).length < rounds) :
    openLoop results fopen rounds mkdirs (path ++ 0 :: rest) prev =
      some (walk results fopen path rest mkdirs (slashesFrom path (prev + 1))) := by
  induction rounds generalizing mkdirs prev with
  | zero => omega
  | succ rounds ih =>
      obtain ⟨hchr, hnil⟩ | ⟨i, hchr, hat, hcons⟩ := strchr_cases rest h0 hprev
      · rw [openLoop, hchr, hnil]
        simp [walk, cstr_append_zero, cstr_of_notMem h0]
      · obtain ⟨hi, -⟩ := List.getElem?_eq_some_iff.mp hat
        rw [hcons, List.length_cons] at hrounds
        rw [openLoop, hchr, hcons, walk]
        simp only [cstr_set h0 hi, set_slash hat]
        split
        · rfl
        · exact ih _ hi (by omega)

theorem walk_clear (mkdirs : List (List Byte))
    (hclear : ∀ k < slashes.length, ¬(results (mkdirs.length + k)).fatal) :
    walk results fopen path rest mkdirs slashes =
      ⟨mkdirs ++ slashes.map path.take, some path, path ++ 0 :: rest, fopen path⟩ := by
  induction slashes generalizing mkdirs with
  | nil => simp [walk]
  | cons i slashes ih =>
      have hfirst : ¬(results mkdirs.length).fatal := hclear 0 (Nat.succ_pos _)
      rw [walk, if_neg hfirst, ih, List.map_cons, List.append_assoc, List.singleton_append]
      intro k hk
      rw [List.length_append, List.length_singleton, Nat.add_assoc, Nat.add_comm 1]
      exact hclear (k + 1) (Nat.succ_lt_succ hk)

/-- A failure: the directories up to it are asked for, and the process exits. -/
theorem walk_failing (mkdirs : List (List Byte)) (hk : k < slashes.length)
    (hfatal : (results (mkdirs.length + k)).fatal)
    (hclear : ∀ j < k, ¬(results (mkdirs.length + j)).fatal) :
    (walk results fopen path rest mkdirs slashes).mkdirs =
        mkdirs ++ (slashes.map path.take).take (k + 1) ∧
      (walk results fopen path rest mkdirs slashes).fopen = none ∧
      (walk results fopen path rest mkdirs slashes).ans = none := by
  induction slashes generalizing mkdirs k with
  | nil => exact absurd hk (Nat.not_lt_zero k)
  | cons i slashes ih =>
      cases k with
      | zero =>
          have hfirst : (results mkdirs.length).fatal := hfatal
          rw [walk, if_pos hfirst]
          exact ⟨rfl, rfl, rfl⟩
      | succ k =>
          have hfirst : ¬(results mkdirs.length).fatal := hclear 0 (Nat.succ_pos k)
          have hshift : ∀ j, (mkdirs ++ [path.take i]).length + j = mkdirs.length + (j + 1) := by
            intro j
            rw [List.length_append, List.length_singleton]
            omega
          rw [walk, if_neg hfirst]
          obtain ⟨hmkdirs, hend⟩ := ih (mkdirs ++ [path.take i]) (k := k)
            (Nat.lt_of_succ_lt_succ hk) (by rw [hshift]; exact hfatal) fun j hj => by
              rw [hshift]
              exact hclear (j + 1) (Nat.succ_lt_succ hj)
          refine ⟨?_, hend⟩
          rw [hmkdirs, List.append_assoc]
          rfl

end loop

/-- **`openFile` prepares the parent directories and leaves the path unchanged**, in at most one
round more than there are slashes behind the first character. -/
theorem openFile_prepares (results : ℕ → Result) (fopen : List Byte → Option φ)
    (path rest : List Byte) (rounds : ℕ) (hne : path ≠ []) (h0 : 0 ∉ path)
    (hrounds : (parents path).length < rounds) :
    ∃ run, openFile results fopen rounds (path ++ 0 :: rest) = some run ∧
      Prepares results fopen path rest run := by
  have hlength : (parents path).length = (slashesFrom path 1).length := List.length_map _
  rw [hlength] at hrounds
  refine ⟨_, openLoop_eq_walk [] h0 (List.length_pos_of_ne_nil hne) hrounds, ?_, ?_⟩
  · intro k hk hfatal hclear
    rw [hlength] at hk
    exact walk_failing [] hk (by simpa using hfatal) (by simpa using hclear)
  · intro hclear
    rw [hlength] at hclear
    exact walk_clear [] (by simpa using hclear)

/-- A path with a slash in front and a repeated one; the directories are there. -/
theorem openFile_prepares_repeated :
    ∃ run, openFile (fun _ => ⟨-1, EEXIST⟩) some 3 (str "/a//b" ++ [0]) = some run ∧
      Prepares (fun _ => ⟨-1, EEXIST⟩) some (str "/a//b") [] run :=
  openFile_prepares _ _ _ _ _ (by decide) (by decide) (by decide)

example : parents (str "/a//b") = [str "/a", str "/a/"] := by decide

end OsProjects.OpenFile
