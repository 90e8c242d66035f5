import OsProjects.Fscanf
import Mathlib.Data.List.Rotate

/-! # The workload

`proj1/getfile/workload.c`: `workload_init` keeps the words of a file in an array of 100 pointers,
and `workload_get_path` gives them out one after the other.

* There is no result where the C code has no defined behaviour: a word that does not fit in
  `temp_buf`, a pointer stored behind the array or read from outside of it, a division by zero.
* `workloadLoad_eq`, `workloadLoad_full` — what the array holds, and that there is room for 100.
* `servesInSequence_iff` — a workload can be served exactly if it has between one and 100 words. -/

namespace OsProjects.Workload

/-- `gWorkloadPathArray` with its pointers, `gUniqueWorkloadPaths` and `counter`. -/
structure Globals where
  gWorkloadPathArray : List (Option (List Byte))
  gUniqueWorkloadPaths : ℕ
  counter : ℤ
deriving DecidableEq, Repr

/-- The length of the array, and of `temp_buf`. -/
def slots : ℕ := 100

def tempBuf : ℕ := 256

/-- The loop of `workload_init`; `strdup` copies the string in `temp_buf`. -/
def workloadLoad (array : List (Option (List Byte))) (i : ℕ) :
    List (List Byte) → Option (List (Option (List Byte)) × ℕ)
  | [] => some (array, i)
  | word :: rest =>
      if tempBuf ≤ word.length ∨ slots ≤ i then none
      else workloadLoad (array.set i (some (cstr word))) (i + 1) rest

/-- `workload_init`, with the file if it can be opened. -/
def workloadInit (file : Option (List Byte)) : Option (ℤ × Globals) :=
  match file with
  | none => some (1, ⟨List.replicate slots none, 0, 0⟩)
  | some file =>
      (workloadLoad (List.replicate slots none) 0 (scanWords file.length file)).map fun r =>
        (0, ⟨r.1, r.2 % 2 ^ 16, 0⟩)

/-- `workload_get_path` in sequential mode. -/
def workloadGetPath (w : Globals) : Option (Option (List Byte) × Globals) :=
  let w := { w with counter := cInt (w.counter + 1) }
  if w.gUniqueWorkloadPaths = 0 then none
  else
    let index := w.counter.tmod w.gUniqueWorkloadPaths
    if index < 0 then none else w.gWorkloadPathArray[index.toNat]?.map fun path => (path, w)

/-- The workload behind so many calls. -/
def afterCalls (w : Globals) : ℕ → Option Globals
  | 0 => some w
  | k + 1 => ((afterCalls w k).bind workloadGetPath).map Prod.snd

/-- What the call behind `k` others returns. -/
def call (w : Globals) (k : ℕ) : Option (Option (List Byte)) :=
  ((afterCalls w k).bind workloadGetPath).map Prod.fst

/-- Every call returns the next token, and any `n` in a row return every token once. -/
structure ServedBy (w : Globals) (tokens : List (List Byte)) : Prop where
  inOrder : ∀ k, 1 ≤ k → k < 2 ^ 31 →
    ∃ token, tokens[k % tokens.length]? = some token ∧ call w (k - 1) = some (some token)
  each : ∀ j, j + tokens.length < 2 ^ 31 →
    ((List.range tokens.length).map fun i => call w (j + i)).Perm
      (tokens.map fun token => some (some token))

/-- The file is accepted, and its tokens are served in sequence. -/
def ServesInSequence (file : List Byte) : Prop :=
  ∃ w, workloadInit (some file) = some (0, w) ∧ ServedBy w (tokens file)

/-! ### Loading -/

section loading
variable {array : List (Option (List Byte))} {i : ℕ} {ws : List (List Byte)}

/-- The words stand in the array behind what was there. -/
theorem workloadLoad_eq (array : List (Option (List Byte))) (i : ℕ)
    (harray : array.length = slots) (hws : ∀ w ∈ ws, w.length < tempBuf) (hroom : i + ws.length ≤ slots) :
    workloadLoad array i ws =
      some (array.take i ++ ws.map (fun w => some (cstr w)) ++ array.drop (i + ws.length),
        i + ws.length) := by
  induction ws generalizing array i with
  | nil => simp [workloadLoad]
  | cons w ws ih =>
      obtain ⟨hw, hrest⟩ := List.forall_mem_cons.mp hws
      rw [List.length_cons] at hroom
      have hlt : i < array.length := by omega
      have hset : array.set i (some (cstr w)) =
          array.take i ++ some (cstr w) :: array.drop (i + 1) := by
        rw [List.set_eq_take_append_cons_drop, if_pos hlt]
      have htake : (array.set i (some (cstr w))).take (i + 1) =
          array.take i ++ [some (cstr w)] := by
        rw [hset, List.append_cons, List.take_left']
        rw [List.length_append, List.length_take, List.length_singleton]
        omega
      have hdrop : (array.set i (some (cstr w))).drop (i + 1 + ws.length) =
          array.drop (i + 1 + ws.length) := List.drop_set_of_lt (by omega)
      rw [workloadLoad, if_neg (by omega), ih _ _ (by rw [List.length_set, harray]) hrest (by omega),
        htake, hdrop]
      simp only [List.map_cons, List.append_assoc, List.singleton_append, List.length_cons,
        Nat.add_assoc, Nat.add_comm 1]

/-- More words than slots. -/
theorem workloadLoad_full (array : List (Option (List Byte))) (hi : i ≤ slots) (hmany : slots < i + ws.length) :
    workloadLoad array i ws = none := by
  induction ws generalizing array i with
  | nil =>
      rw [List.length_nil] at hmany
      omega
  | cons w ws ih =>
      rw [List.length_cons] at hmany
      rw [workloadLoad]
      split
      · rfl
      · next hfit => exact ih _ (by omega) (by omega)

theorem workloadInit_words {file : List Byte} (hws : ∀ w ∈ words file, w.length < tempBuf)
    (hfew : (tokens file).length ≤ slots) :
    workloadInit (some file) = some (0,
      ⟨(tokens file).map some ++ List.replicate (slots - (tokens file).length) none,
        (tokens file).length, 0⟩) := by
  have hlength : (tokens file).length = (words file).length := List.length_map _
  have hsmall : (tokens file).length % 2 ^ 16 = (tokens file).length := by
    apply Nat.mod_eq_of_lt
    unfold slots at hfew
    omega
  have hload := workloadLoad_eq (List.replicate slots none) 0 (by simp) hws
    (by omega)
  rw [List.take_zero, List.nil_append, Nat.zero_add, List.drop_replicate, ← hlength] at hload
  unfold workloadInit
  dsimp only
  rw [scanWords_eq (le_refl _), hload, Option.map_some, hsmall, tokens, List.map_map]
  rfl

end loading

/-! ### Calls -/

section calls
variable {tokens : List (List Byte)} {free : List (Option (List Byte))}

theorem workloadGetPath_eq (hpos : 0 < tokens.length) {k : ℕ} (hk : k + 1 < 2 ^ 31) :
    workloadGetPath ⟨tokens.map some ++ free, tokens.length, k⟩ =
      tokens[(k + 1) % tokens.length]?.map fun token =>
        (some token, ⟨tokens.map some ++ free, tokens.length, (k + 1 : ℕ)⟩) := by
  have hcounter : cInt ((k : ℤ) + 1) = (k + 1 : ℕ) := cInt_of_lt (by omega) (by omega)
  have hindex : ((k + 1 : ℕ) : ℤ).tmod tokens.length = ((k + 1) % tokens.length : ℕ) :=
    (Int.ofNat_tmod _ _).symm
  have hlt : (k + 1) % tokens.length < (tokens.map some).length := by
    rw [List.length_map]
    exact Nat.mod_lt _ hpos
  unfold workloadGetPath
  dsimp only
  rw [hcounter, hindex, if_neg hpos.ne', if_neg (by omega), Int.toNat_natCast,
    List.getElem?_append_left hlt, List.getElem?_map, Option.map_map]
  rfl

theorem afterCalls_eq (hpos : 0 < tokens.length) {k : ℕ} (hk : k < 2 ^ 31) :
    afterCalls ⟨tokens.map some ++ free, tokens.length, 0⟩ k =
      some ⟨tokens.map some ++ free, tokens.length, k⟩ := by
  induction k with
  | zero => rfl
  | succ k ih =>
      have hlt : (k + 1) % tokens.length < tokens.length := Nat.mod_lt _ hpos
      rw [afterCalls, ih (by omega), Option.bind_some, workloadGetPath_eq hpos hk,
        List.getElem?_eq_getElem hlt]
      rfl

theorem call_eq (hpos : 0 < tokens.length) {k : ℕ} (hk : k + 1 < 2 ^ 31) :
    call ⟨tokens.map some ++ free, tokens.length, 0⟩ k =
      tokens[(k + 1) % tokens.length]?.map some := by
  rw [call, afterCalls_eq hpos (by omega), Option.bind_some, workloadGetPath_eq hpos hk,
    Option.map_map]
  rfl

theorem servedBy_tokens (hpos : 0 < tokens.length) (free : List (Option (List Byte))) :
    ServedBy ⟨tokens.map some ++ free, tokens.length, 0⟩ tokens where
  inOrder k hk hlt := by
    have hmod : k % tokens.length < tokens.length := Nat.mod_lt _ hpos
    obtain ⟨k, rfl⟩ : ∃ j, k = j + 1 := ⟨k - 1, by omega⟩
    refine ⟨_, List.getElem?_eq_getElem hmod, ?_⟩
    rw [Nat.add_sub_cancel, call_eq hpos hlt, List.getElem?_eq_getElem hmod]
    rfl
  each j hj := by
    -- the calls go through the tokens, from one of them on
    have hcalls : (List.range tokens.length).map (fun i =>
        call ⟨tokens.map some ++ free, tokens.length, 0⟩ (j + i)) =
        (tokens.rotate (j + 1)).map fun token => some (some token) := by
      apply List.ext_getElem?
      intro i
      by_cases hi : i < tokens.length
      · rw [List.getElem?_map, List.getElem?_map, List.getElem?_range hi, Option.map_some,
          call_eq hpos (by omega), List.getElem?_rotate hi]
        have hadd : i + (j + 1) = j + i + 1 := by omega
        have hmod : (j + i + 1) % tokens.length < tokens.length := Nat.mod_lt _ hpos
        rw [hadd, List.getElem?_eq_getElem hmod]
        rfl
      · rw [List.getElem?_eq_none (by simpa using hi), List.getElem?_eq_none (by simpa using hi)]
    rw [hcalls]
    exact (tokens.rotate_perm (j + 1)).map _

end calls

/-- **A workload is served in sequence exactly if it has between one and 100 tokens.** -/
theorem servesInSequence_iff (file : List Byte) (hws : ∀ w ∈ words file, w.length < tempBuf) :
    ServesInSequence file ↔ 1 ≤ (words file).length ∧ (words file).length ≤ slots := by
  have hlength : (tokens file).length = (words file).length := List.length_map _
  constructor
  · rintro ⟨w, hinit, hserved⟩
    constructor
    · by_contra hnone
      obtain ⟨token, htoken, -⟩ := hserved.inOrder 1 (le_refl 1) (by omega)
      have hempty : tokens file = [] := List.length_eq_zero_iff.mp (by omega)
      rw [hempty] at htoken
      cases htoken
    · by_contra hmany
      have hfull := workloadLoad_full (List.replicate slots none) (Nat.zero_le slots)
        (show slots < 0 + (words file).length by omega)
      unfold workloadInit at hinit
      dsimp only at hinit
      rw [scanWords_eq (le_refl _), hfull] at hinit
      cases hinit
  · rintro ⟨hpos, hfew⟩
    exact ⟨_, workloadInit_words hws (by omega), servedBy_tokens (by omega) _⟩

theorem servesInSequence_iff_two :
    ServesInSequence (str "/a\n/b\n") ↔
      1 ≤ (words (str "/a\n/b\n")).length ∧ (words (str "/a\n/b\n")).length ≤ slots :=
  servesInSequence_iff _ (by decide)

/-- An empty file is accepted, and the first call divides by zero. -/
theorem not_servesInSequence_empty : ¬∀ file : List Byte,
    (∀ w ∈ words file, w.length < tempBuf) → ServesInSequence file := by
  intro h
  obtain ⟨w, hinit, hserved⟩ := h [] (by decide)
  obtain ⟨token, -, hcall⟩ := hserved.inOrder 1 (le_refl 1) (by omega)
  obtain rfl : (⟨List.replicate slots none, 0, 0⟩ : Globals) = w :=
    (Prod.mk.inj (Option.some.inj hinit)).2
  have hdivision : call ⟨List.replicate slots none, 0, 0⟩ 0 = none := rfl
  rw [hdivision] at hcall
  cases hcall

end OsProjects.Workload
