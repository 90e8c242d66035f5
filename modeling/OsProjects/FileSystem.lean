import Mathlib.Data.List.Basic
import Mathlib.Logic.Function.Basic

/-! # Files and their names

A file is an object with a number, reached through names in a directory and, once it is open,
through its number alone; removing a name leaves the object alone.

* **Structure.** The names of a `FileSystem` are bound to files made before, no two to the same one
  (there are no hard links).
* **Operations.** `create` is `fopen(name, "w")`: it empties the file of that name, or makes one;
  `append` is a write at the end of an open file; `unlink` removes a name.
* **Abstraction.** `read` is the map from names to contents.  Each operation updates it at one name:
  `read_create`, `read_append`, `read_unlink`. -/

namespace OsProjects

variable {ν β : Type*}

/-- A directory of files. -/
structure FileSystem (ν β : Type*) where
  dir : ν → Option ℕ
  file : ℕ → List β
  next : ℕ
  made : ∀ (name : ν) (i : ℕ), dir name = some i → i < next
  unshared : ∀ (name name' : ν) (i : ℕ), dir name = some i → dir name' = some i → name = name'

namespace FileSystem

/-- The content of the file of that name. -/
def read (fs : FileSystem ν β) (name : ν) : Option (List β) := (fs.dir name).map fs.file

/-- No files. -/
def empty (ν β : Type*) : FileSystem ν β where
  dir _ := none
  file _ := []
  next := 0
  made _ _ h := by cases h
  unshared _ _ _ h := by cases h

/-- The content of file `i` is set. -/
def setFile (fs : FileSystem ν β) (i : ℕ) (bytes : List β) : FileSystem ν β :=
  { fs with file := Function.update fs.file i bytes }

/-- A write at the end of the open file `i`. -/
def append (fs : FileSystem ν β) (i : ℕ) (bytes : List β) : FileSystem ν β :=
  fs.setFile i (fs.file i ++ bytes)

variable [DecidableEq ν]

/-- A new empty file with a name of its own. -/
def make (fs : FileSystem ν β) (name : ν) : FileSystem ν β where
  dir := Function.update fs.dir name (some fs.next)
  file := Function.update fs.file fs.next []
  next := fs.next + 1
  made n i h := by
    by_cases hn : n = name
    · rw [hn, Function.update_self] at h
      obtain rfl := Option.some.inj h
      exact Nat.lt_succ_self _
    · rw [Function.update_of_ne hn] at h
      exact Nat.lt_succ_of_lt (fs.made n i h)
  unshared n n' i h h' := by
    by_cases hn : n = name
    · by_cases hn' : n' = name
      · rw [hn, hn']
      · rw [hn, Function.update_self] at h
        rw [Function.update_of_ne hn'] at h'
        have hlt := fs.made n' i h'
        obtain rfl := Option.some.inj h
        exact absurd hlt (Nat.lt_irrefl _)
    · rw [Function.update_of_ne hn] at h
      by_cases hn' : n' = name
      · rw [hn', Function.update_self] at h'
        have hlt := fs.made n i h
        obtain rfl := Option.some.inj h'
        exact absurd hlt (Nat.lt_irrefl _)
      · rw [Function.update_of_ne hn'] at h'
        exact fs.unshared n n' i h h'

/-- `fopen(name, "w")`: the files behind, and the number of the one opened. -/
def create (fs : FileSystem ν β) (name : ν) : FileSystem ν β × ℕ :=
  match fs.dir name with
  | some i => (fs.setFile i [], i)
  | none => (fs.make name, fs.next)

/-- `unlink(name)`. -/
def unlink (fs : FileSystem ν β) (name : ν) : FileSystem ν β where
  dir := Function.update fs.dir name none
  file := fs.file
  next := fs.next
  made n i h := by
    by_cases hn : n = name
    · rw [hn, Function.update_self] at h
      cases h
    · rw [Function.update_of_ne hn] at h
      exact fs.made n i h
  unshared n n' i h h' := by
    by_cases hn : n = name
    · rw [hn, Function.update_self] at h
      cases h
    · by_cases hn' : n' = name
      · rw [hn', Function.update_self] at h'
        cases h'
      · rw [Function.update_of_ne hn] at h
        rw [Function.update_of_ne hn'] at h'
        exact fs.unshared n n' i h h'

/-! ### What the operations do to the contents -/

variable {fs : FileSystem ν β} {name : ν} {i : ℕ}

/-- A write to an open file is seen under its name. -/
theorem read_setFile (h : fs.dir name = some i) (bytes : List β) :
    (fs.setFile i bytes).read = Function.update fs.read name (some bytes) := by
  funext n
  by_cases hn : n = name
  · simp [read, setFile, hn, h]
  · rw [Function.update_of_ne hn]
    unfold read setFile
    cases hd : fs.dir n with
    | none => rfl
    | some j =>
        have hj : j ≠ i := by
          rintro rfl
          exact hn (fs.unshared n name j hd h)
        simp [hj]

theorem read_append {old : List β} (h : fs.dir name = some i) (hread : fs.read name = some old)
    (bytes : List β) :
    (fs.append i bytes).read = Function.update fs.read name (some (old ++ bytes)) := by
  have hold : fs.file i = old := by
    unfold read at hread
    rw [h] at hread
    exact Option.some.inj hread
  unfold append
  rw [hold]
  exact read_setFile h _

omit [DecidableEq ν] in
@[simp] theorem dir_append (bytes : List β) : (fs.append i bytes).dir = fs.dir := rfl

theorem read_make (fs : FileSystem ν β) (name : ν) :
    (fs.make name).read = Function.update fs.read name (some []) := by
  funext n
  by_cases hn : n = name
  · simp [read, make, hn]
  · rw [Function.update_of_ne hn]
    unfold read make
    simp only [Function.update_of_ne hn]
    cases hd : fs.dir n with
    | none => rfl
    | some j =>
        have hj : j ≠ fs.next := Nat.ne_of_lt (fs.made n j hd)
        simp [hj]

/-- The file opened is empty, and the others are as they were. -/
theorem read_create (fs : FileSystem ν β) (name : ν) :
    (fs.create name).1.read = Function.update fs.read name (some []) := by
  unfold create
  cases h : fs.dir name with
  | some i => exact read_setFile h []
  | none => exact read_make fs name

/-- The number is that of the file, and the other names are bound as before. -/
theorem dir_create (fs : FileSystem ν β) (name : ν) :
    (fs.create name).1.dir = Function.update fs.dir name (some (fs.create name).2) := by
  unfold create
  cases h : fs.dir name with
  | some i =>
      have hself := Function.update_eq_self name fs.dir
      rw [h] at hself
      exact hself.symm
  | none => rfl

theorem read_unlink (fs : FileSystem ν β) (name : ν) :
    (fs.unlink name).read = Function.update fs.read name none := by
  funext n
  by_cases hn : n = name
  · simp [read, unlink, hn]
  · simp [read, unlink, hn]

theorem dir_unlink_of_ne (fs : FileSystem ν β) {n : ν} (h : n ≠ name) :
    (fs.unlink name).dir n = fs.dir n :=
  Function.update_of_ne h _ _

end FileSystem

end OsProjects
