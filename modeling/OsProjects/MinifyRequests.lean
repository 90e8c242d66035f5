import OsProjects.Fscanf
import Mathlib.Algebra.Group.Nat.Even

/-! # The requests of the minify client

`load_requests` of `proj4/minifyjpeg_main.c` reads the workload two words at a time, until `fscanf`
returns `EOF`; it returns 1 when only one word is left.

* A field of a request that nothing has been read into is `none`; `malloc` is taken to succeed.
* `loadRequests_eq` — what is queued, for any number of words.
* `queuesComplete_iff` — there is a request for each pair of words and no other one exactly if the
  number of words is even. -/

namespace OsProjects.MinifyRequests

/-- `request_t`. -/
structure RequestT where
  inputfilename : Option (List Byte)
  outputfilename : Option (List Byte)
deriving DecidableEq, Repr

/-- The size of a file name. -/
def nameSize : ℕ := 256

def EOF : ℤ := -1

/-- What `malloc` returns. -/
def RequestT.fresh : RequestT := ⟨none, none⟩

/-- `fscanf(file, "%s %s", req->inputfilename, req->outputfilename)`: its value, the request and
the rest of the file; nothing where a word does not fit. -/
def fscanfRequest (req : RequestT) (file : List Byte) : Option (ℤ × RequestT × List Byte) :=
  match scanWord file with
  | none => some (EOF, req, [])
  | some (input, rest) =>
      if nameSize ≤ input.length then none
      else
        let req := { req with inputfilename := some (cstr input) }
        match scanWord rest with
        | none => some (1, req, [])
        | some (output, rest) =>
            if nameSize ≤ output.length then none
            else some (2, { req with outputfilename := some (cstr output) }, rest)

/-- The loop of `load_requests`, for at most so many rounds. -/
def loadLoop : ℕ → List RequestT → List Byte → Option (List RequestT)
  | 0, _, _ => none
  | rounds + 1, queue, file =>
      match fscanfRequest .fresh file with
      | none => none
      | some (result, req, rest) =>
          if result ≠ EOF then loadLoop rounds (queue ++ [req]) rest else some queue

/-- `load_requests`: the queue behind it; it exits if the file cannot be opened. -/
def loadRequests (file : Option (List Byte)) : Option (List RequestT) :=
  file.bind fun file => loadLoop (file.length + 1) [] file

/-- The consecutive pairs of a list. -/
def pairs {α : Type*} : List α → List (α × α)
  | a :: b :: rest => (a, b) :: pairs rest
  | _ => []

/-- Both fields have been read. -/
def RequestT.Complete (req : RequestT) : Prop :=
  req.inputfilename.isSome ∧ req.outputfilename.isSome

/-- The queue has a request for each pair of tokens, in order, and only complete ones. -/
def QueuesComplete (file : List Byte) : Prop :=
  ∃ queue, loadRequests (some file) = some queue ∧
    queue = (pairs (tokens file)).map (fun p => ⟨some p.1, some p.2⟩) ∧
    ∀ req ∈ queue, req.Complete

/-! ### What is queued -/

/-- A request for each pair of tokens, and one for a token that is left. -/
def requests : List (List Byte) → List RequestT
  | [] => []
  | [input] => [⟨some input, none⟩]
  | input :: output :: rest => ⟨some input, some output⟩ :: requests rest

section loading
variable {file : List Byte} {queue : List RequestT} {rounds : ℕ}

theorem tokens_nil (h : words file = []) : tokens file = [] := by
  rw [tokens, h]
  rfl

theorem tokens_cons {w rest : List Byte} (h : words file = w :: words rest) :
    tokens file = cstr w :: tokens rest := by
  rw [tokens, h]
  rfl

theorem fscanfRequest_cases (hws : ∀ w ∈ words file, w.length < nameSize) :
    (fscanfRequest .fresh file = some (EOF, .fresh, []) ∧ tokens file = []) ∨
    (∃ input, fscanfRequest .fresh file = some (1, ⟨some input, none⟩, []) ∧
      tokens file = [input] ∧ 0 < file.length) ∨
    ∃ input output rest,
      fscanfRequest .fresh file = some (2, ⟨some input, some output⟩, rest) ∧
      tokens file = input :: output :: tokens rest ∧ (∀ w ∈ words rest, w.length < nameSize) ∧
      rest.length < file.length := by
  unfold fscanfRequest
  obtain ⟨hnone, hwords⟩ | ⟨w, rest, hsome, hwords, -, hlt⟩ := scanWord_cases file
  · rw [hnone]
    exact .inl ⟨rfl, tokens_nil hwords⟩
  · rw [hwords] at hws
    obtain ⟨hw, hws⟩ := List.forall_mem_cons.mp hws
    simp only [hsome, if_neg (not_le.mpr hw), tokens_cons hwords]
    obtain ⟨hnone, hwords'⟩ | ⟨w', rest', hsome', hwords', -, hlt'⟩ := scanWord_cases rest
    · rw [hnone, tokens_nil hwords']
      exact .inr (.inl ⟨_, rfl, rfl, by omega⟩)
    · rw [hwords'] at hws
      obtain ⟨hw', hws⟩ := List.forall_mem_cons.mp hws
      simp only [hsome', if_neg (not_le.mpr hw'), tokens_cons hwords']
      exact .inr (.inr ⟨_, _, rest', rfl, rfl, hws, by omega⟩)

/-- **The loop queues a request for every pair, and one for a word that is left.** -/
theorem loadLoop_eq (hws : ∀ w ∈ words file, w.length < nameSize) (h : file.length < rounds) :
    loadLoop rounds queue file = some (queue ++ requests (tokens file)) := by
  induction rounds generalizing queue file with
  | zero => omega
  | succ rounds ih =>
      obtain ⟨hscan, htokens⟩ | ⟨input, hscan, htokens, hpos⟩ |
        ⟨input, output, rest, hscan, htokens, hrest, hlt⟩ := fscanfRequest_cases hws
      · rw [loadLoop, hscan, htokens]
        simp [requests]
      · -- the next call of `fscanf` finds the end of the file
        have hnext : loadLoop rounds (queue ++ [⟨some input, none⟩]) [] =
            some (queue ++ [⟨some input, none⟩] ++ requests (tokens [])) :=
          ih (by simp [words_nil]) (show 0 < rounds by omega)
        rw [tokens_nil words_nil, requests, List.append_nil] at hnext
        rw [loadLoop, hscan, htokens]
        exact hnext
      · have hnext : loadLoop rounds (queue ++ [⟨some input, some output⟩]) rest =
            some (queue ++ [⟨some input, some output⟩] ++ requests (tokens rest)) :=
          ih hrest (by omega)
        rw [List.append_assoc] at hnext
        rw [loadLoop, hscan, htokens]
        exact hnext

theorem loadRequests_eq (hws : ∀ w ∈ words file, w.length < nameSize) :
    loadRequests (some file) = some (requests (tokens file)) := by
  unfold loadRequests
  rw [Option.bind_some, loadLoop_eq hws (Nat.lt_succ_self _), List.nil_append]

end loading

/-! ### Complete requests -/

/-- The requests are the pairs if no token is left over. -/
theorem requests_of_even : ∀ {ts : List (List Byte)}, Even ts.length →
    requests ts = (pairs ts).map fun p => ⟨some p.1, some p.2⟩
  | [], _ => rfl
  | [_], h => absurd h Nat.not_even_one
  | input :: output :: rest, h => by
      have hrest : Even rest.length := by
        rw [List.length_cons, List.length_cons, Nat.even_add_one, Nat.even_add_one] at h
        exact not_not.mp h
      rw [requests, pairs, List.map_cons, requests_of_even hrest]

theorem requests_of_odd : ∀ {ts : List (List Byte)}, ¬Even ts.length →
    ∃ req ∈ requests ts, ¬req.Complete
  | [], h => absurd Even.zero h
  | [input], _ => ⟨⟨some input, none⟩, List.mem_cons_self, fun hc => Bool.false_ne_true hc.2⟩
  | input :: output :: rest, h => by
      have hrest : ¬Even rest.length := by
        rw [List.length_cons, List.length_cons, Nat.even_add_one, Nat.even_add_one] at h
        exact fun heven => h (not_not.mpr heven)
      obtain ⟨req, hmem, hreq⟩ := requests_of_odd hrest
      exact ⟨req, List.mem_cons_of_mem _ hmem, hreq⟩

/-- **Only complete requests are queued exactly if the number of words is even.** -/
theorem queuesComplete_iff (file : List Byte) (hws : ∀ w ∈ words file, w.length < nameSize) :
    QueuesComplete file ↔ Even (words file).length := by
  have hlength : (tokens file).length = (words file).length := List.length_map _
  rw [← hlength]
  constructor
  · rintro ⟨queue, hload, -, hcomplete⟩
    rw [loadRequests_eq hws] at hload
    obtain rfl := Option.some.inj hload
    by_contra hodd
    obtain ⟨req, hmem, hreq⟩ := requests_of_odd hodd
    exact hreq (hcomplete req hmem)
  · intro heven
    have hpairs := requests_of_even heven
    refine ⟨_, loadRequests_eq hws, hpairs, fun req hmem => ?_⟩
    rw [hpairs] at hmem
    obtain ⟨p, -, rfl⟩ := List.mem_map.mp hmem
    exact ⟨rfl, rfl⟩

theorem queuesComplete_iff_two :
    QueuesComplete (str "a.jpg b.jpg\n") ↔ Even (words (str "a.jpg b.jpg\n")).length :=
  queuesComplete_iff _ (by decide)

/-- A file with one word: its request has no output file. -/
theorem not_queuesComplete_one : ¬∀ file : List Byte,
    (∀ w ∈ words file, w.length < nameSize) → QueuesComplete file := by
  intro h
  obtain ⟨queue, hload, -, hcomplete⟩ := h (str "a") (by decide)
  obtain rfl : [⟨some (str "a"), none⟩] = queue := Option.some.inj hload
  exact Bool.false_ne_true (hcomplete _ List.mem_cons_self).2

end OsProjects.MinifyRequests
