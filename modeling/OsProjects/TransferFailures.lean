import OsProjects.WorkerPool

/-! # Failures in the copy loop of a worker

`worker_main` logs a failed `pread` or a short `gfs_send`, answers `GF_ERROR` and calls
`gfs_abort`, but its `return` is commented out: the loop goes on.  Every turn of it calls `pread`
once and `gfs_send` once, so the results of a run of the loop are a sequence of turns.

* `goodTurn`, `failedRead`, `failedSend` — one turn of the loop, with the calls it makes.
* `Kept.copyStep` — what holds at each point of the loop while nothing fails.
* `stops_iff` — the worker stops at its first failure exactly if nothing fails. -/

namespace OsProjects.MtServer

open Transition

variable {κ : Type*} {E : Env} {c : Worker κ}

/-- The results of the two calls of one turn: how much `pread` is to read (as in `jobStep`), and
what `gfs_send` returns. -/
structure Turn where
  pread : ℤ
  send : ℤ
deriving DecidableEq, Repr

/-- The result that a step of the turn uses. -/
def Turn.argument (t : Turn) : WorkerPc → ℤ
  | .pread => t.pread
  | .send => t.send
  | _ => 0

/-- A worker in its copy loop, and the number of turns before the present one. -/
structure Copying (κ : Type*) where
  worker : Worker κ
  turn : ℕ

/-- One step of the loop, on the results of all its turns. -/
def copyStep (E : Env) (x : ℕ → Turn) (s : Copying κ) (_ : Unit) : Option (Copying κ) :=
  (answerStep E s.worker ((x s.turn).argument s.worker.pc)).map fun c =>
    ⟨c, if s.worker.pc = .advance then s.turn + 1 else s.turn⟩

/-- The runs of the loop. -/
abbrev Copies (E : Env) (x : ℕ → Turn) : Copying κ → Copying κ → Prop :=
  Reach (copyStep E x) Any

section sequence
variable (data : List Byte) (x : ℕ → Turn)

/-- The results of `gfs_send` before turn `i`, added up. -/
def sentBefore : ℕ → ℤ
  | 0 => 0
  | i + 1 => sentBefore i + (x i).send

/-- What `pread` gives in turn `i`. -/
def gotIn (i : ℕ) : List Byte × ℤ := preadAt data (sentBefore x i) (x i).pread

/-- The loop comes to turn `i`. -/
def ComesTo (i : ℕ) : Prop := ∀ j ≤ i, sentBefore x j < data.length

/-- `gfs_send` accepts at most what it is given. -/
def SendsAtMost : Prop := ∀ i, ComesTo data x i → (x i).send ≤ sizeT (gotIn data x i).2

/-- Every `pread` gives something, and `gfs_send` accepts all of it. -/
def NothingFails : Prop :=
  ∀ i, ComesTo data x i → 0 < (gotIn data x i).2 ∧ (x i).send = (gotIn data x i).2

end sequence

/-- The worker stops at its first failure: no call follows `gfs_abort`, `gfs_send` is given no
negative length, and the loop is left. -/
structure StopsAtFailure (E : Env) (x : ℕ → Turn) (c : Worker κ) : Prop where
  quiet : ∀ s, Copies E x ⟨c, 0⟩ s → s.worker.calls.Pairwise fun a _ => a ≠ .abort
  lengths : ∀ s, Copies E x ⟨c, 0⟩ s → s.worker.pc = .send → 0 ≤ s.worker.readLen
  leaves : ∃ s, Copies E x ⟨c, 0⟩ s ∧ s.worker.pc = .waitTask .lock

/-- A worker that comes to its copy loop: the header is sent. -/
structure AtLoop (E : Env) (c : Worker κ) : Prop where
  pc : c.pc = .copy
  bytesTransferred : c.bytesTransferred = 0
  fileLen : c.fileLen = (E.contents c.fildes).length
  calls : .abort ∉ c.calls

/-! ### One turn -/

section turn
variable {x : ℕ → Turn} {i : ℕ}

theorem copies_step {c' : Worker κ} (hp : c.pc ≠ .advance)
    (h : answerStep E c ((x i).argument c.pc) = some c') : Copies E x ⟨c, i⟩ ⟨c', i⟩ := by
  apply Reach.single (a := ()) trivial
  rw [copyStep, h, if_neg hp]
  rfl

/-- The worker behind the `pread` of turn `i`. -/
def afterPread (E : Env) (x : ℕ → Turn) (c : Worker κ) (i : ℕ) : Worker κ :=
  let got := gotIn (E.contents c.fildes) x i
  { c with
    readLen := got.2
    buffer := got.1 ++ c.buffer.drop got.1.length
    pc := if got.2 ≤ 0 then .readError else .send }

/-- The worker behind the `gfs_send` of turn `i`. -/
def afterSend (x : ℕ → Turn) (c : Worker κ) (i : ℕ) : Worker κ :=
  { c with
    calls := c.calls ++ [.send c.buffer (sizeT c.readLen)]
    writeLen := (x i).send
    pc := if (x i).send = c.readLen then .advance else .writeError }

/-- The worker behind the two calls that answer a failure. -/
def afterError (c : Worker κ) (p : WorkerPc) : Worker κ :=
  { c with calls := c.calls ++ [.sendheader .error 0, .abort], pc := p }

/-- A worker at the test of the loop, in turn `i`. -/
structure InTurn (x : ℕ → Turn) (c : Worker κ) (i : ℕ) : Prop where
  pc : c.pc = .copy
  bytesTransferred : c.bytesTransferred = sentBefore x i

theorem copies_pread (h : InTurn x c i) (hlt : sentBefore x i < c.fileLen) :
    Copies E x ⟨c, i⟩ ⟨afterPread E x c i, i⟩ := by
  have hp := h.pc
  have hb := h.bytesTransferred
  have hcopy : answerStep E c ((x i).argument c.pc) = some { c with pc := .pread } := by
    simp only [answerStep, jobStep, hp, hb, if_pos hlt, Option.map_some]
  refine (copies_step (by simp [hp]) hcopy).trans (copies_step (by simp) ?_)
  rw [afterPread, gotIn, ← hb]
  rfl

theorem copies_send (hp : c.pc = .send) : Copies E x ⟨c, i⟩ ⟨afterSend x c i, i⟩ := by
  apply copies_step (by simp [hp])
  rw [answerStep, jobStep]
  simp only [hp]
  rfl

theorem copies_readError (hp : c.pc = .readError) :
    Copies E x ⟨c, i⟩ ⟨afterError c .send, i⟩ := by
  have herror : answerStep E c ((x i).argument c.pc) =
      some { c with calls := c.calls ++ [.sendheader .error 0], pc := .readAbort } := by
    simp only [answerStep, jobStep, hp, Option.map_some]
  refine (copies_step (by simp [hp]) herror).trans (copies_step (by simp) ?_)
  simp only [answerStep, jobStep, afterError, List.append_assoc, List.singleton_append,
    Option.map_some]

theorem copies_writeError (hp : c.pc = .writeError) :
    Copies E x ⟨c, i⟩ ⟨afterError c .advance, i⟩ := by
  have herror : answerStep E c ((x i).argument c.pc) =
      some { c with calls := c.calls ++ [.sendheader .error 0], pc := .writeAbort } := by
    simp only [answerStep, jobStep, hp, Option.map_some]
  refine (copies_step (by simp [hp]) herror).trans (copies_step (by simp) ?_)
  simp only [answerStep, jobStep, afterError, List.append_assoc, List.singleton_append,
    Option.map_some]

theorem copies_advance (hp : c.pc = .advance) : Copies E x ⟨c, i⟩
    ⟨{ c with bytesTransferred := c.bytesTransferred + c.writeLen, pc := .copy }, i + 1⟩ := by
  apply Reach.single (a := ()) trivial
  rw [copyStep, if_pos hp, answerStep, jobStep]
  simp only [hp]
  rfl

/-- A turn in which nothing fails. -/
theorem goodTurn (h : InTurn x c i) (hlt : sentBefore x i < c.fileLen)
    (hgot : 0 < (gotIn (E.contents c.fildes) x i).2)
    (hsend : (x i).send = (gotIn (E.contents c.fildes) x i).2) :
    ∃ c', Copies E x ⟨c, i⟩ ⟨c', i + 1⟩ ∧ InTurn x c' (i + 1) ∧ c'.fileLen = c.fileLen ∧
      c'.fildes = c.fildes := by
  have hread : (afterPread E x c i).pc = .send := if_neg (not_le.mpr hgot)
  have hsent : (afterSend x (afterPread E x c i) i).pc = .advance := if_pos hsend
  refine ⟨_, ((copies_pread h hlt).trans (copies_send hread)).trans (copies_advance hsent),
    ⟨rfl, ?_⟩, rfl, rfl⟩
  exact congrArg (· + (x i).send) h.bytesTransferred

/-- A turn in which `pread` fails: `gfs_send` is called behind `gfs_abort`. -/
theorem failedRead (h : InTurn x c i) (hlt : sentBefore x i < c.fileLen)
    (hgot : (gotIn (E.contents c.fildes) x i).2 ≤ 0) :
    ∃ s call, Copies E x ⟨c, i⟩ s ∧
      s.worker.calls = c.calls ++ [.sendheader .error 0, .abort] ++ [call] := by
  have hread : (afterPread E x c i).pc = .readError := if_pos hgot
  exact ⟨_, _, ((copies_pread h hlt).trans (copies_readError hread)).trans (copies_send rfl), rfl⟩

/-- A turn in which `gfs_send` accepts less: the loop goes on behind `gfs_abort`. -/
theorem failedSend (h : InTurn x c i) (hlt : sentBefore x i < c.fileLen)
    (hgot : 0 < (gotIn (E.contents c.fildes) x i).2)
    (hsend : (x i).send ≠ (gotIn (E.contents c.fildes) x i).2) :
    ∃ c' call, Copies E x ⟨c, i⟩ ⟨c', i + 1⟩ ∧ InTurn x c' (i + 1) ∧ c'.fileLen = c.fileLen ∧
      c'.calls = c.calls ++ [call] ++ [.sendheader .error 0, .abort] := by
  have hread : (afterPread E x c i).pc = .send := if_neg (not_le.mpr hgot)
  have hsent : (afterSend x (afterPread E x c i) i).pc = .writeError := if_neg hsend
  refine ⟨_, _, (((copies_pread h hlt).trans (copies_send hread)).trans
    (copies_writeError hsent)).trans (copies_advance rfl), ⟨rfl, ?_⟩, rfl, rfl⟩
  exact congrArg (· + (x i).send) h.bytesTransferred

theorem calls_turn (h : InTurn x c i) (hlt : sentBefore x i < c.fileLen) :
    ∃ s call calls, Copies E x ⟨c, i⟩ s ∧ s.worker.calls = c.calls ++ call :: calls := by
  by_cases hgot : (gotIn (E.contents c.fildes) x i).2 ≤ 0
  · obtain ⟨s, call, hs, hcalls⟩ := failedRead h hlt hgot
    exact ⟨s, _, _, hs, by rw [hcalls, List.append_assoc]; rfl⟩
  · exact ⟨_, _, _, (copies_pread h hlt).trans (copies_send (if_neg hgot)), rfl⟩

end turn

/-! ### Runs -/

section runs
variable {data : List Byte} {x : ℕ → Turn} {i : ℕ}

/-- What `pread` gives fits into the buffer and into the rest of the file. -/
theorem gotIn_bounds (h : 0 < (gotIn data x i).2) :
    (gotIn data x i).2 ≤ bufferSize ∧ sentBefore x i + (gotIn data x i).2 ≤ data.length := by
  unfold gotIn preadAt at h ⊢
  by_cases hneg : (x i).pread < 0 ∨ sentBefore x i < 0
  · simp [hneg] at h
  · rw [if_neg hneg] at h ⊢
    simp only [List.length_take, List.length_drop] at h ⊢
    omega

/-- What holds at each point of the loop while nothing fails. -/
def Kept (E : Env) (data : List Byte) (x : ℕ → Turn) (s : Copying κ) : Prop :=
  E.contents s.worker.fildes = data ∧ s.worker.fileLen = data.length ∧ .abort ∉ s.worker.calls ∧
    match s.worker.pc with
    | .copy => s.worker.bytesTransferred = sentBefore x s.turn ∧
        ∀ j < s.turn, sentBefore x j < data.length
    | .pread => s.worker.bytesTransferred = sentBefore x s.turn ∧ ComesTo data x s.turn
    | .send => s.worker.bytesTransferred = sentBefore x s.turn ∧ ComesTo data x s.turn ∧
        s.worker.readLen = (gotIn data x s.turn).2 ∧ 0 < s.worker.readLen
    | .advance => s.worker.bytesTransferred = sentBefore x s.turn ∧ ComesTo data x s.turn ∧
        s.worker.writeLen = (x s.turn).send
    | .waitTask .lock => True
    | _ => False

theorem Kept.copyStep {s s' : Copying κ} (hx : NothingFails data x) (hs : Kept E data x s)
    (h : copyStep E x s () = some s') : Kept E data x s' := by
  obtain ⟨hdata, hlen, hcalls, hpc⟩ := hs
  obtain ⟨c', hstep, rfl⟩ := Option.map_eq_some_iff.mp h
  obtain ⟨j, hjob, rfl⟩ := Option.map_eq_some_iff.mp hstep
  rw [jobStep] at hjob
  cases hp : s.worker.pc with
  | copy =>
      simp only [hp, Option.some.injEq] at hjob hpc
      obtain ⟨hb, hbefore⟩ := hpc
      subst hjob
      refine ⟨hdata, hlen, hcalls, ?_⟩
      by_cases hlt : s.worker.bytesTransferred < s.worker.fileLen
      · rw [if_pos hlt, if_neg (by simp)]
        refine ⟨hb, fun j hj => ?_⟩
        obtain hj | rfl := Nat.lt_or_eq_of_le hj
        · exact hbefore j hj
        · show sentBefore x s.turn < _
          omega
      · rw [if_neg hlt]
        trivial
  | pread =>
      simp only [hp, Option.some.injEq, Turn.argument] at hjob hpc
      obtain ⟨hb, hturn⟩ := hpc
      have hgot : preadAt (E.contents s.worker.fildes) s.worker.bytesTransferred
          (x s.turn).pread = gotIn data x s.turn := by rw [hdata, hb, gotIn]
      rw [hgot] at hjob
      subst hjob
      have hpos := (hx s.turn hturn).1
      refine ⟨hdata, hlen, hcalls, ?_⟩
      rw [if_neg (not_le.mpr hpos), if_neg (by simp)]
      exact ⟨hb, hturn, rfl, hpos⟩
  | send =>
      simp only [hp, Option.some.injEq, Turn.argument] at hjob hpc
      obtain ⟨hb, hturn, hread, hpos⟩ := hpc
      subst hjob
      refine ⟨hdata, hlen, by simpa using hcalls, ?_⟩
      rw [if_pos ((hx s.turn hturn).2.trans hread.symm), if_neg (by simp)]
      exact ⟨hb, hturn, rfl⟩
  | advance =>
      simp only [hp, Option.some.injEq] at hjob hpc
      obtain ⟨hb, hturn, hwrite⟩ := hpc
      subst hjob
      refine ⟨hdata, hlen, hcalls, ?_, fun j hj => ?_⟩
      · rw [if_pos rfl]
        show _ + _ = sentBefore x s.turn + (x s.turn).send
        rw [hb, hwrite]
      · rw [if_pos rfl] at hj
        exact hturn j (Nat.lt_succ_iff.mp hj)
  | waitTask _ | pop | unlock | returned | contentGet | sendNotFound | lseek | sendOk =>
      simp [hp] at hjob hpc
  | readError | readAbort | writeError | writeAbort =>
      simp [hp] at hpc

theorem leaves_of_nothingFails (hx : NothingFails data x) (hdata : E.contents c.fildes = data)
    (hlen : c.fileLen = data.length) (h : InTurn x c i)
    (hbefore : ∀ j < i, sentBefore x j < data.length) :
    ∃ s, Copies E x ⟨c, i⟩ s ∧ s.worker.pc = .waitTask .lock := by
  induction hn : (data.length - sentBefore x i).toNat using Nat.strong_induction_on
    generalizing c i with
  | _ n ih =>
      by_cases hlt : sentBefore x i < data.length
      · have hturn : ComesTo data x i := by
          intro j hj
          obtain hj | rfl := Nat.lt_or_eq_of_le hj
          · exact hbefore j hj
          · exact hlt
        obtain ⟨hpos, hsend⟩ := hx i hturn
        obtain ⟨c', hc', hin, hlen', hfildes⟩ := goodTurn (E := E) h (by rwa [hlen])
          (by rwa [hdata]) (by rwa [hdata])
        have hnext : sentBefore x (i + 1) = sentBefore x i + (x i).send := rfl
        obtain ⟨s, hs, hleft⟩ := ih _ (by omega) (by rw [hfildes, hdata]) (by rw [hlen', hlen]) hin
          (fun j hj => hturn j (Nat.lt_succ_iff.mp hj)) rfl
        exact ⟨s, hc'.trans hs, hleft⟩
      · refine ⟨⟨{ c with pc := .waitTask .lock }, i⟩, copies_step (by simp [h.pc]) ?_, rfl⟩
        simp only [answerStep, jobStep, h.pc, h.bytesTransferred, hlen, if_neg hlt,
          Option.map_some]

theorem copies_turn (hx : ∀ j < i, 0 < (gotIn data x j).2 ∧ (x j).send = (gotIn data x j).2)
    (hdata : E.contents c.fildes = data) (hlen : c.fileLen = data.length) (h : InTurn x c 0)
    (hturn : ComesTo data x i) :
    ∃ c', Copies E x ⟨c, 0⟩ ⟨c', i⟩ ∧ InTurn x c' i ∧ c'.fileLen = data.length ∧
      E.contents c'.fildes = data := by
  induction i with
  | zero => exact ⟨c, .refl, h, hlen, hdata⟩
  | succ i ih =>
      obtain ⟨c₁, hc₁, hin, hlen₁, hdata₁⟩ := ih (fun j hj => hx j (by omega))
        (fun j hj => hturn j (by omega))
      obtain ⟨hpos, hsend⟩ := hx i (by omega)
      obtain ⟨c', hc', hin', hlen', hfildes⟩ := goodTurn (E := E) hin
        (by rw [hlen₁]; exact hturn i (by omega)) (by rwa [hdata₁]) (by rwa [hdata₁])
      exact ⟨c', hc₁.trans hc', hin', hlen'.trans hlen₁, by rw [hfildes, hdata₁]⟩

theorem not_quiet {before behind : List Call} (ha : .abort ∈ before) (hb : behind ≠ []) :
    ¬(before ++ behind).Pairwise fun a _ => a ≠ .abort := by
  intro h
  obtain ⟨call, hcall⟩ := List.exists_mem_of_ne_nil behind hb
  exact (List.pairwise_append.mp h).2.2 _ ha call hcall rfl

/-- **The worker stops at its first failure exactly if nothing fails**: behind every failure some
call follows `gfs_abort`. The file does not grow behind `lseek`; where it does, `pread` can deliver
more than is left to send, and the loop can end with a send that was short. -/
theorem stops_iff (E : Env) (x : ℕ → Turn) (c : Worker κ) (hc : AtLoop E c)
    (hx : SendsAtMost (E.contents c.fildes) x) :
    StopsAtFailure E x c ↔ NothingFails (E.contents c.fildes) x := by
  have hin : InTurn x c 0 := ⟨hc.pc, hc.bytesTransferred⟩
  constructor
  · intro hstop i
    induction i using Nat.strong_induction_on with
    | _ i ih =>
        intro hturn
        obtain ⟨c', hc', hin', hlen, hdata⟩ := copies_turn
          (fun j hj => ih j hj fun k hk => hturn k (hk.trans hj.le)) rfl hc.fileLen hin hturn
        have hlt : sentBefore x i < c'.fileLen := by
          rw [hlen]
          exact hturn i le_rfl
        by_cases hgot : (gotIn (E.contents c.fildes) x i).2 ≤ 0
        · obtain ⟨s, call, hs, hcalls⟩ := failedRead (E := E) hin' hlt (by rwa [hdata])
          have hquiet := hstop.quiet s (hc'.trans hs)
          rw [hcalls] at hquiet
          exact absurd hquiet (not_quiet (by simp) (by simp))
        · have hpos := not_le.mp hgot
          refine ⟨hpos, ?_⟩
          by_contra hsend
          obtain ⟨c₁, call, hc₁, hin₁, hlen₁, hcalls₁⟩ :=
            failedSend (E := E) hin' hlt (by rwa [hdata]) (by rwa [hdata])
          -- less is counted than was read, so the loop goes on
          obtain ⟨hbuf, hend⟩ := gotIn_bounds hpos
          have hmost := hx i hturn
          rw [sizeT_of_nonneg hpos.le (by unfold bufferSize at hbuf; omega)] at hmost
          have hnext : sentBefore x (i + 1) = sentBefore x i + (x i).send := rfl
          obtain ⟨s, call', calls, hs, hcalls⟩ :=
            calls_turn (E := E) hin₁ (by rw [hlen₁, hlen]; omega)
          have hquiet := hstop.quiet s ((hc'.trans hc₁).trans hs)
          rw [hcalls, hcalls₁] at hquiet
          exact absurd hquiet (not_quiet (by simp) (by simp))
  · intro hgood
    have hkept : ∀ s, Copies E x ⟨c, 0⟩ s → Kept E (E.contents c.fildes) x s := by
      intro s hs
      refine hs.invariant ⟨rfl, hc.fileLen, hc.calls, ?_⟩ fun s _ s' hk _ hstep =>
        hk.copyStep hgood hstep
      rw [hc.pc]
      exact ⟨hc.bytesTransferred, by simp⟩
    refine ⟨fun s hs => ?_, fun s hs hp => ?_,
      leaves_of_nothingFails hgood rfl hc.fileLen hin (by simp)⟩
    · have hcalls := (hkept s hs).2.2.1
      exact List.pairwise_of_forall_mem_list fun a ha _ _ heq => hcalls (heq ▸ ha)
    · have hpc := (hkept s hs).2.2.2
      rw [hp] at hpc
      exact hpc.2.2.2.le

end runs

/-- A worker without a context type of its own, in front of a file of one byte. -/
def workerAtLoop : Worker Unit :=
  ⟨.copy, none, 3, 1, 0, 0, 0, [0], [.sendheader .ok 1]⟩

def envOneByte : Env := ⟨fun _ => 3, fun _ => [97]⟩

theorem atLoop_oneByte : AtLoop envOneByte workerAtLoop := ⟨rfl, rfl, rfl, by decide⟩

theorem stops_iff_oneByte :
    AtLoop envOneByte workerAtLoop ∧
      SendsAtMost (envOneByte.contents workerAtLoop.fildes) (fun _ => ⟨1, 1⟩) ∧
      StopsAtFailure envOneByte (fun _ => ⟨1, 1⟩) workerAtLoop := by
  have hfirst : ∀ i, ComesTo [97] (fun _ => ⟨1, 1⟩) i → i = 0 := by
    intro i h
    by_contra hi
    exact absurd (h 1 (by omega)) (by decide)
  have hsend : SendsAtMost (envOneByte.contents workerAtLoop.fildes) fun _ => ⟨1, 1⟩ := by
    intro i h
    obtain rfl := hfirst i h
    decide
  refine ⟨atLoop_oneByte, hsend, (stops_iff _ _ _ atLoop_oneByte hsend).mpr fun i h => ?_⟩
  obtain rfl := hfirst i h
  decide

/-- `pread` fails at once. -/
theorem not_stops_readError :
    ¬∀ (E : Env) (x : ℕ → Turn) (c : Worker Unit), AtLoop E c →
      SendsAtMost (E.contents c.fildes) x → StopsAtFailure E x c := by
  intro h
  have hstop := h envOneByte (fun _ => ⟨-1, -1⟩) workerAtLoop atLoop_oneByte fun i _ => by
    show (-1 : ℤ) ≤ _
    omega
  obtain ⟨s, call, hs, hcalls⟩ := failedRead (E := envOneByte) (x := fun _ => ⟨-1, -1⟩)
    (c := workerAtLoop) (i := 0) ⟨rfl, rfl⟩ (by decide) (by decide)
  have hquiet := hstop.quiet s hs
  rw [hcalls] at hquiet
  exact absurd hquiet (not_quiet (by simp) (by simp))

end OsProjects.MtServer
