import OsProjects.Guarded
import OsProjects.Ledger
import OsProjects.MinifyClient

/-! # The workers of the minify client share the work

The mutex of `proj4/minifyjpeg_main.c` is taken before the loop of `worker_main`, released in the
middle of its body and taken again at its end.

* `Queue` — who holds the mutex, and that the queue is not empty where it is popped.
* `Books` — the requests taken, read and written, by `Ledger.lean`.
* `work_shared` — with at least one worker, when all have returned every request has been taken,
  read and written exactly once. -/

namespace OsProjects.MinifyClient

open Monitor Transition

variable {ω : Type*} [DecidableEq ω] {E : Env} {s s' : State ω} {w : ω}
  {file : Option (List Byte)}

/-- The worker holds the mutex. -/
def Pc.holds : Pc → Bool
  | isempty | pop | unlock | unlockEmpty => true
  | _ => false

/-- The worker has found the queue empty. -/
def Pc.done : Pc → Bool
  | unlockEmpty | returned => true
  | _ => false

def State.holds (s : State ω) (w : ω) : Bool := (s.workers w).pc.holds

/-- What holds inside the critical section: a worker pops a queue that is not empty. -/
def State.Crit (s : State ω) (w : ω) : Prop := (s.workers w).pc = .pop → s.queue ≠ []

/-- The mutex guards the queue. -/
def Queue (s : State ω) : Prop := Guarded s.mutex s.holds True s.Crit

@[simp] theorem setWorker_self (s : State ω) (w : ω) (c : Worker) :
    (s.setWorker w c).workers w = c := by
  simp [State.setWorker]

theorem setWorker_of_ne (s : State ω) (c : Worker) {v w : ω} (h : v ≠ w) :
    (s.setWorker w c).workers v = s.workers v := by
  simp [State.setWorker, h]

@[simp] theorem goto_pc (s : State ω) (w : ω) (pc : Pc) : ((s.goto w pc).workers w).pc = pc := by
  simp [State.goto]

/-! ### What a step can do -/

/-- The moves of worker `w`. -/
inductive Move (E : Env) (s : State ω) (w : ω) : State ω → Prop
  | take (hp : (s.workers w).pc = .lock ∨ (s.workers w).pc = .relock) (hn : s.mutex = none) :
      Move E s w { s.goto w .isempty with mutex := some w }
  | test (hp : (s.workers w).pc = .isempty) :
      Move E s w (s.goto w (if s.queue.isEmpty then .unlockEmpty else .pop))
  | underflow (hp : (s.workers w).pc = .pop) (hq : s.queue = []) :
      Move E s w { s with exited := true }
  | pop (i : ℕ) (q : List ℕ) (hp : (s.workers w).pc = .pop) (hq : s.queue = i :: q) :
      Move E s w { s.setWorker w { s.workers w with request := some i, pc := .unlock } with
        queue := q
        popped := s.popped ++ [(w, i)] }
  | unlock (hp : (s.workers w).pc = .unlock) : Move E s w { s.goto w .read with mutex := none }
  | missing (hp : (s.workers w).pc = .read) : Move E s w { s with exited := true }
  | read (i : ℕ) (bytes : List Byte) (hp : (s.workers w).pc = .read)
      (hi : (s.workers w).request = some i) :
      Move E s w { s.setWorker w { s.workers w with srcVal := bytes, pc := .minify } with
        reads := s.reads ++ [⟨w, i, (E.request i).inputfilename, bytes⟩] }
  | minify (hp : (s.workers w).pc = .minify) :
      Move E s w (s.setWorker w
        { s.workers w with dstVal := E.minify (s.workers w).srcVal, pc := .write })
  | write (i : ℕ) (hp : (s.workers w).pc = .write) (hi : (s.workers w).request = some i) :
      Move E s w { s.goto w .free with
        writes := s.writes ++ [⟨w, i, (E.request i).outputfilename, (s.workers w).dstVal⟩] }
  | free (hp : (s.workers w).pc = .free) : Move E s w (s.setWorker w ⟨.relock, none, [], []⟩)
  | leave (hp : (s.workers w).pc = .unlockEmpty) :
      Move E s w { s.goto w .returned with mutex := none }

theorem workerStep_move (h : workerStep E s w file = some s') : Move E s w s' := by
  unfold workerStep at h
  cases hp : (s.workers w).pc with
  | lock | relock =>
      simp only [hp] at h
      obtain ⟨hn, h⟩ := Option.ite_none_right_eq_some.mp h
      obtain rfl := Option.some.inj h
      exact .take (by simp [hp]) (Option.isNone_iff_eq_none.mp hn)
  | isempty =>
      simp only [hp, Option.some.injEq] at h
      exact h ▸ .test hp
  | pop =>
      simp only [hp] at h
      split at h <;> obtain rfl := Option.some.inj h
      · next hq => exact .underflow hp hq
      · next i q hq => exact .pop i q hp hq
  | unlock =>
      simp only [hp, Option.some.injEq] at h
      exact h ▸ .unlock hp
  | read =>
      simp only [hp, Option.map_eq_some_iff] at h
      obtain ⟨i, hi, rfl⟩ := h
      cases file with
      | none => exact .missing hp
      | some bytes => exact .read i bytes hp hi
  | minify =>
      simp only [hp, Option.some.injEq] at h
      exact h ▸ .minify hp
  | write =>
      simp only [hp, Option.map_eq_some_iff] at h
      obtain ⟨i, hi, rfl⟩ := h
      exact .write i hp hi
  | free =>
      simp only [hp, Option.some.injEq] at h
      exact h ▸ .free hp
  | unlockEmpty =>
      simp only [hp, Option.some.injEq] at h
      exact h ▸ .leave hp
  | returned => simp [hp] at h

/-- The other workers do not notice a move. -/
theorem Move.frame (h : Move E s w s') : ∀ v ≠ w, s'.workers v = s.workers v := by
  intro v hv
  cases h with
  | underflow | missing => rfl
  | _ => exact setWorker_of_ne s _ hv

/-! ### The mutex and the queue -/

theorem Move.holds_frame (h : Move E s w s') : ∀ v ≠ w, s'.holds v = s.holds v := by
  intro v hv
  rw [State.holds, h.frame v hv]
  rfl

/-- A step outside of the critical section. -/
theorem Queue.outside (hQ : Queue s) (h : Move E s w s') (hm : s'.mutex = s.mutex)
    (hq : s'.queue = s.queue) (hw : s.holds w = false) (hw' : s'.holds w = false) : Queue s' := by
  unfold Queue
  rw [hm]
  apply Guarded.outside hQ h.holds_frame hw hw' (fun _ => trivial)
  intro v hv _ hc hp
  rw [h.frame v hv] at hp
  rw [hq]
  exact hc hp

/-- A step that leaves the critical section. -/
theorem Queue.leave (hQ : Queue s) (h : Move E s w s') (hm : s'.mutex = none)
    (hw : s.holds w = true) (hw' : s'.holds w = false) : Queue s' := by
  refine Guarded.inside_step hQ h.holds_frame hw ?_ (fun hh => ?_) fun _ => trivial
  · rw [hw', hm]
    rfl
  · rw [hw'] at hh
    cases hh

theorem Queue.move (hQ : Queue s) (h : Move E s w s') : Queue s' := by
  have hmove := h
  have hframe := h.holds_frame
  cases h with
  | take hp hn =>
      rw [Queue, hn] at hQ
      refine Guarded.take hQ hframe ?_ fun _ => ?_
      · simp [State.holds, State.goto, State.setWorker, Pc.holds]
      · simp [State.Crit, State.goto, State.setWorker]
  | test hp =>
      refine Guarded.inside_step hQ hframe (by simp [State.holds, hp, Pc.holds]) ?_ (fun _ => ?_)
        fun _ => trivial
      · rw [State.holds, goto_pc]
        cases hq : s.queue.isEmpty <;> rfl
      · rw [State.Crit, goto_pc]
        cases hq : s.queue with
        | nil => simp
        | cons i q => simp [State.goto, State.setWorker, hq]
  | underflow hp hq => exact hQ
  | pop i q hp hq =>
      refine Guarded.inside_step hQ hframe (by simp [State.holds, hp, Pc.holds]) ?_ (fun _ => ?_)
        fun _ => trivial
      · simp [State.holds, State.setWorker, Pc.holds]
      · simp [State.Crit, State.setWorker]
  | unlock hp | leave hp =>
      exact hQ.leave hmove rfl (by simp [State.holds, hp, Pc.holds])
        (by simp [State.holds, State.goto, State.setWorker, Pc.holds])
  | missing hp => exact hQ
  | read i bytes hp hi =>
      exact hQ.outside hmove rfl rfl (by simp [State.holds, hp, Pc.holds])
        (by simp [State.holds, State.setWorker, Pc.holds])
  | minify hp | free hp =>
      exact hQ.outside hmove rfl rfl (by simp [State.holds, hp, Pc.holds])
        (by simp [State.holds, Pc.holds])
  | write i hp hi =>
      exact hQ.outside hmove rfl rfl (by simp [State.holds, hp, Pc.holds])
        (by simp [State.holds, State.goto, State.setWorker, Pc.holds])

/-- Once a worker has found the queue empty, it stays empty. -/
def Drained (s : State ω) : Prop := ∀ w, (s.workers w).pc.done = true → s.queue = []

/-- A move that leaves the queue alone. -/
theorem Drained.keep (hD : Drained s) (h : Move E s w s') (hq : s'.queue = s.queue)
    (hw : (s'.workers w).pc.done = true → s.queue = []) : Drained s' := by
  intro v hv
  rw [hq]
  by_cases hvw : v = w
  · rw [hvw] at hv
    exact hw hv
  · rw [h.frame v hvw] at hv
    exact hD v hv

theorem Drained.move (hD : Drained s) (h : Move E s w s') : Drained s' := by
  have hmove := h
  cases h with
  | test hp =>
      apply hD.keep hmove rfl
      intro hd
      rw [goto_pc] at hd
      cases hq : s.queue with
      | nil => rfl
      | cons i q => simp [hq, Pc.done] at hd
  | underflow hp hq => exact fun _ _ => hq
  | pop i q hp hq =>
      intro v hv
      by_cases hvw : v = w
      · simp [hvw, State.setWorker, Pc.done] at hv
      · rw [hmove.frame v hvw] at hv
        rw [hD v hv] at hq
        cases hq
  | missing hp => exact hD.keep hmove rfl fun hd => by simp [hp, Pc.done] at hd
  | leave hp => exact hD.keep hmove rfl fun _ => hD w (by rw [hp]; rfl)
  | _ => exact hD.keep hmove rfl fun hd => by simp [State.goto, State.setWorker, Pc.done] at hd

/-! ### The books -/

/-- The request that the worker has still to read the file of. -/
def Worker.toRead (c : Worker) : Option ℕ :=
  match c.pc with
  | .unlock | .read => c.request
  | _ => none

/-- The request that the worker has still to write the file of. -/
def Worker.toWrite (c : Worker) : Option ℕ :=
  match c.pc with
  | .unlock | .read | .minify | .write => c.request
  | _ => none

/-- Who made a call, and for which request. -/
def FileCall.owner (x : FileCall ω) : ω × ℕ := (x.worker, x.request)

/-- Worker `w` has read the input file of request `i`. -/
def ReadBy (E : Env) (s : State ω) (w : ω) (i : ℕ) (bytes : List Byte) : Prop :=
  (⟨w, i, (E.request i).inputfilename, bytes⟩ : FileCall ω) ∈ s.reads

/-- What the worker has in its variables. -/
def Worker.Has (E : Env) (s : State ω) (w : ω) (c : Worker) : Prop :=
  match c.pc with
  | .minify => ∃ i, c.request = some i ∧ ReadBy E s w i c.srcVal
  | .write => ∃ i bytes, c.request = some i ∧ ReadBy E s w i bytes ∧ c.dstVal = E.minify bytes
  | _ => True

/-- The requests taken, read and written so far. -/
structure Books (E : Env) (s : State ω) : Prop where
  order : s.popped.map Prod.snd ++ s.queue = List.range E.requests.length
  reads : Ledger s.popped (fun v => (s.workers v).toRead) (s.reads.map FileCall.owner)
  writes : Ledger s.popped (fun v => (s.workers v).toWrite) (s.writes.map FileCall.owner)
  has : ∀ v, (s.workers v).Has E s v
  input : ∀ x ∈ s.reads, x.filename = (E.request x.request).inputfilename
  output : ∀ x ∈ s.writes, x.filename = (E.request x.request).outputfilename ∧
    ∃ bytes, ReadBy E s x.worker x.request bytes ∧ x.bytes = E.minify bytes

omit [DecidableEq ω] in
theorem books_init (E : Env) : Books E (init ω E) where
  order := rfl
  reads := .nil
  writes := .nil
  has _ := trivial
  input _ h := by cases h
  output _ h := by cases h

omit [DecidableEq ω] in
/-- A request that is still in the queue has not been taken. -/
theorem Books.fresh {i : ℕ} {q : List ℕ} (hB : Books E s) (hq : s.queue = i :: q) (v : ω) :
    (v, i) ∉ s.popped := by
  have hn : (s.popped.map Prod.snd ++ s.queue).Nodup := hB.order ▸ List.nodup_range
  intro hmem
  have hi : i ∈ s.queue := by simp [hq]
  exact (List.nodup_append.mp hn).2.2 i (List.mem_map_of_mem hmem) i hi rfl

/-- A move that takes nothing out of the queue and makes no call. -/
theorem Books.quiet (hB : Books E s) (h : Move E s w s')
    (hrec : (s'.queue, s'.popped, s'.reads, s'.writes) = (s.queue, s.popped, s.reads, s.writes))
    (hr : (s'.workers w).toRead = (s.workers w).toRead)
    (hw : (s'.workers w).toWrite = (s.workers w).toWrite)
    (hhas : (s'.workers w).Has E s w) : Books E s' := by
  simp only [Prod.mk.injEq] at hrec
  obtain ⟨hqueue, hpopped, hreads, hwrites⟩ := hrec
  have hsame {α : Type} (f : Worker → α) (hf : f (s'.workers w) = f (s.workers w)) (v : ω) :
      f (s'.workers v) = f (s.workers v) := by
    by_cases hvw : v = w
    · rw [hvw, hf]
    · rw [h.frame v hvw]
  have hby : ∀ v i bytes, ReadBy E s v i bytes → ReadBy E s' v i bytes := by
    intro v i bytes hb
    rw [ReadBy, hreads]
    exact hb
  refine ⟨?_, ?_, ?_, fun v => ?_, ?_, ?_⟩
  · rw [hpopped, hqueue]
    exact hB.order
  · rw [hpopped, hreads]
    exact hB.reads.congr (hsame _ hr)
  · rw [hpopped, hwrites]
    exact hB.writes.congr (hsame _ hw)
  · have hv : (s'.workers v).Has E s v := by
      by_cases hvw : v = w
      · rw [hvw]
        exact hhas
      · rw [h.frame v hvw]
        exact hB.has v
    unfold Worker.Has ReadBy at hv ⊢
    rw [hreads]
    exact hv
  · rw [hreads]
    exact hB.input
  · rw [hwrites]
    intro x hx
    obtain ⟨hname, bytes, hb, hbytes⟩ := hB.output x hx
    exact ⟨hname, bytes, hby _ _ _ hb, hbytes⟩

omit [DecidableEq ω] in
/-- What a worker has read stays read. -/
theorem Worker.Has.mono {v : ω} {c : Worker} (h : c.Has E s v) (hr : s.reads ⊆ s'.reads) :
    c.Has E s' v := by
  unfold Worker.Has at h ⊢
  split
  · next hp =>
      simp only [hp] at h
      obtain ⟨i, hi, hread⟩ := h
      exact ⟨i, hi, hr hread⟩
  · next hp =>
      simp only [hp] at h
      obtain ⟨i, bytes, hi, hread, hdst⟩ := h
      exact ⟨i, bytes, hi, hr hread, hdst⟩
  · trivial

theorem Books.pop {i : ℕ} {q : List ℕ} (hB : Books E s) (hp : (s.workers w).pc = .pop)
    (hq : s.queue = i :: q) :
    Books E { s.setWorker w { s.workers w with request := some i, pc := .unlock } with
      queue := q
      popped := s.popped ++ [(w, i)] } where
  order := by
    have horder := hB.order
    rw [hq] at horder
    rw [List.map_append, List.append_assoc]
    exact horder
  reads := by
    refine hB.reads.hand (by simp [Worker.toRead, hp]) (hB.fresh hq w) (fun v hv => ?_) ?_
    · simp [State.setWorker, hv]
    · simp [State.setWorker, Worker.toRead]
  writes := by
    refine hB.writes.hand (by simp [Worker.toWrite, hp]) (hB.fresh hq w) (fun v hv => ?_) ?_
    · simp [State.setWorker, hv]
    · simp [State.setWorker, Worker.toWrite]
  has v := by
    by_cases hvw : v = w
    · subst hvw
      simp [State.setWorker, Worker.Has]
    · have hv := hB.has v
      rw [← setWorker_of_ne s { s.workers w with request := some i, pc := .unlock } hvw] at hv
      exact hv.mono (List.Subset.refl _)
  input := hB.input
  output := hB.output

theorem Books.read {i : ℕ} {bytes : List Byte} (hB : Books E s) (hp : (s.workers w).pc = .read)
    (hi : (s.workers w).request = some i) :
    Books E { s.setWorker w { s.workers w with srcVal := bytes, pc := .minify } with
      reads := s.reads ++ [⟨w, i, (E.request i).inputfilename, bytes⟩] } where
  order := hB.order
  reads := by
    rw [List.map_append]
    refine hB.reads.finish (by simp [Worker.toRead, hp, hi]) (fun v hv => ?_) ?_
    · simp [State.setWorker, hv]
    · simp [State.setWorker, Worker.toRead]
  writes := by
    apply hB.writes.congr
    intro v
    by_cases hvw : v = w
    · subst hvw
      simp [State.setWorker, Worker.toWrite, hp]
    · simp [State.setWorker, hvw]
  has v := by
    by_cases hvw : v = w
    · subst hvw
      have hread : ReadBy E { s.setWorker v { s.workers v with srcVal := bytes, pc := .minify } with
          reads := s.reads ++ [⟨v, i, (E.request i).inputfilename, bytes⟩] } v i bytes := by
        simp [ReadBy]
      simpa [State.setWorker, Worker.Has] using ⟨i, hi, hread⟩
    · have hv := hB.has v
      rw [← setWorker_of_ne s { s.workers w with srcVal := bytes, pc := .minify } hvw] at hv
      exact hv.mono (List.subset_append_left _ _)
  input x hx := by
    rcases List.mem_append.mp hx with hx | hx
    · exact hB.input x hx
    · rw [List.mem_singleton.mp hx]
  output x hx := by
    obtain ⟨hname, b, hread, hb⟩ := hB.output x hx
    exact ⟨hname, b, List.mem_append_left _ hread, hb⟩

theorem Books.write {i : ℕ} (hB : Books E s) (hp : (s.workers w).pc = .write)
    (hi : (s.workers w).request = some i) :
    Books E { s.goto w .free with
      writes := s.writes ++ [⟨w, i, (E.request i).outputfilename, (s.workers w).dstVal⟩] } where
  order := hB.order
  reads := by
    apply hB.reads.congr
    intro v
    by_cases hvw : v = w
    · subst hvw
      simp [State.goto, State.setWorker, Worker.toRead, hp]
    · simp [State.goto, State.setWorker, hvw]
  writes := by
    rw [List.map_append]
    refine hB.writes.finish (by simp [Worker.toWrite, hp, hi]) (fun v hv => ?_) ?_
    · simp [State.goto, State.setWorker, hv]
    · simp [State.goto, State.setWorker, Worker.toWrite]
  has v := by
    by_cases hvw : v = w
    · subst hvw
      simp [State.goto, State.setWorker, Worker.Has]
    · have hv := hB.has v
      rw [← setWorker_of_ne s { s.workers w with pc := .free } hvw] at hv
      exact hv.mono (List.Subset.refl _)
  input := hB.input
  output x hx := by
    rcases List.mem_append.mp hx with hx | hx
    · exact hB.output x hx
    · obtain rfl := List.mem_singleton.mp hx
      have hw := hB.has w
      simp only [Worker.Has, hp] at hw
      obtain ⟨j, bytes, hj, hread, hdst⟩ := hw
      obtain rfl := Option.some.inj (hi.symm.trans hj)
      exact ⟨rfl, bytes, hread, hdst⟩

theorem Books.move (hB : Books E s) (h : Move E s w s') : Books E s' := by
  have hmove := h
  cases h with
  | underflow | missing => exact hB.quiet hmove rfl rfl rfl (hB.has w)
  | pop i q hp hq => exact hB.pop hp hq
  | read i bytes hp hi => exact hB.read hp hi
  | write i hp hi => exact hB.write hp hi
  | take hp hn =>
      refine hB.quiet hmove rfl ?_ ?_ ?_
      · rcases hp with hp | hp <;> simp [State.goto, State.setWorker, Worker.toRead, hp]
      · rcases hp with hp | hp <;> simp [State.goto, State.setWorker, Worker.toWrite, hp]
      · simp [State.goto, State.setWorker, Worker.Has]
  | test hp =>
      refine hB.quiet hmove rfl ?_ ?_ ?_
      · cases s.queue.isEmpty <;> simp [State.goto, State.setWorker, Worker.toRead, hp]
      · cases s.queue.isEmpty <;> simp [State.goto, State.setWorker, Worker.toWrite, hp]
      · cases s.queue.isEmpty <;> simp [State.goto, State.setWorker, Worker.Has]
  | minify hp =>
      refine hB.quiet hmove rfl ?_ ?_ ?_
      · simp [State.setWorker, Worker.toRead, hp]
      · simp [State.setWorker, Worker.toWrite, hp]
      · have hw := hB.has w
        simp only [Worker.Has, hp] at hw
        obtain ⟨i, hi, hread⟩ := hw
        simpa [State.setWorker, Worker.Has] using ⟨i, hi, _, hread, rfl⟩
  | unlock hp | free hp | leave hp =>
      refine hB.quiet hmove rfl ?_ ?_ ?_
      · simp [State.goto, State.setWorker, Worker.toRead, hp]
      · simp [State.goto, State.setWorker, Worker.toWrite, hp]
      · simp [State.goto, State.setWorker, Worker.Has]

/-! ### Runs -/

theorem step_move {a : ω × Option (List Byte)} (h : step E s a = some s') : Move E s a.1 s' := by
  unfold step at h
  split at h
  · cases h
  · exact workerStep_move h

theorem Reachable.queue (h : Reachable E s) : Queue s := by
  refine h.invariant (I := Queue) ⟨fun w => ?_, fun _ => trivial, fun w hw => ?_⟩
    fun _ _ _ hQ _ hs => hQ.move (step_move hs)
  · simp [init, State.holds, Pc.holds]
  · simp [init, State.holds, Pc.holds] at hw

theorem Reachable.drained (h : Reachable E s) : Drained s := by
  refine h.invariant (I := Drained) (fun w hw => ?_) fun _ _ _ hD _ hs => hD.move (step_move hs)
  simp [init, Pc.done] at hw

theorem Reachable.books (h : Reachable E s) : Books E s :=
  h.invariant (books_init E) fun _ _ _ hB _ hs => hB.move (step_move hs)

/-- What holds in every state: nobody pops an empty queue, touches the queue without the mutex, or
locks the mutex while holding it. -/
structure Safe (s : State ω) : Prop where
  pop : ∀ w, (s.workers w).pc = .pop → s.queue ≠ []
  touch : ∀ w, (s.workers w).pc = .isempty ∨ (s.workers w).pc = .pop → s.mutex = some w
  lock : ∀ w, (s.workers w).pc = .lock ∨ (s.workers w).pc = .relock → s.mutex ≠ some w

/-- What holds when all workers have returned. -/
structure Finished (E : Env) (s : State ω) : Prop where
  queue : s.queue = []
  mutex : s.mutex = none
  taken : (s.popped.map Prod.snd).Perm (List.range E.requests.length)
  read : (s.reads.map FileCall.owner).Perm s.popped
  written : (s.writes.map FileCall.owner).Perm s.popped
  input : ∀ x ∈ s.reads, x.filename = (E.request x.request).inputfilename
  output : ∀ x ∈ s.writes, x.filename = (E.request x.request).outputfilename ∧
    ∃ y ∈ s.reads, y.owner = x.owner ∧ x.bytes = E.minify y.bytes

omit [DecidableEq ω] in
theorem Queue.safe (hQ : Queue s) : Safe s where
  pop w hp := hQ.inside w (by rw [State.holds, hp]; rfl) hp
  touch w hp := (hQ.lock w).mpr (by rcases hp with hp | hp <;> rw [State.holds, hp] <;> rfl)
  lock w hp hm := by
    have hh := (hQ.lock w).mp hm
    rcases hp with hp | hp <;> simp [State.holds, hp, Pc.holds] at hh

omit [DecidableEq ω] in
theorem Books.finished (hB : Books E s) (hQ : Queue s) (hqueue : s.queue = [])
    (hret : ∀ w, (s.workers w).pc = .returned) : Finished E s := by
  have htaken : s.popped.map Prod.snd = List.range E.requests.length := by
    rw [← hB.order, hqueue, List.append_nil]
  have hnodup : s.popped.Nodup := List.Nodup.of_map Prod.snd (htaken ▸ List.nodup_range)
  refine ⟨hqueue, ?_, htaken ▸ List.Perm.refl _, ?_, ?_, hB.input, fun x hx => ?_⟩
  · cases hm : s.mutex with
    | none => rfl
    | some w =>
        have hh := (hQ.lock w).mp hm
        simp [State.holds, hret w, Pc.holds] at hh
  · exact hB.reads.perm hnodup fun w => by simp [Worker.toRead, hret w]
  · exact hB.writes.perm hnodup fun w => by simp [Worker.toWrite, hret w]
  · obtain ⟨hname, bytes, hread, hbytes⟩ := hB.output x hx
    exact ⟨hname, _, hread, rfl, hbytes⟩

/-- **The work is shared**: every state is safe, and when all of at least one worker have returned,
every request has been taken by one worker, who has read its input file and written what the server
makes of these bytes to its output file, once each. -/
theorem work_shared [Nonempty ω] (E : Env) (s : State ω) (h : Reachable E s) :
    Safe s ∧ ((∀ w, (s.workers w).pc = .returned) → Finished E s) := by
  have hQ := Reachable.queue h
  refine ⟨hQ.safe, fun hret => ?_⟩
  obtain ⟨w⟩ := ‹Nonempty ω›
  have hqueue := Reachable.drained h w (by rw [hret w]; rfl)
  exact (Reachable.books h).finished hQ hqueue hret

/-- Two requests, and a server that reverses. -/
def twoRequests : Env := ⟨[⟨[97], [98]⟩, ⟨[99], [100]⟩], List.reverse⟩

/-- Two workers take one request each. -/
def twoRun : List (Bool × Option (List Byte)) :=
  List.replicate 4 (true, none) ++ List.replicate 4 (false, none) ++
    List.replicate 4 (true, some [1, 2]) ++ List.replicate 4 (false, some [3]) ++
    List.replicate 3 (true, none) ++ List.replicate 3 (false, none)

def twoEnd : State Bool :=
  (exec (step twoRequests) (init Bool twoRequests) twoRun).getD (init Bool twoRequests)

theorem work_shared_two : (∀ w, (twoEnd.workers w).pc = .returned) ∧ Finished twoRequests twoEnd := by
  have hret : ∀ w, (twoEnd.workers w).pc = .returned := by decide +kernel
  exact ⟨hret, (work_shared twoRequests twoEnd (reach_of_exec twoRun rfl)).2 hret⟩

/-- Without workers nothing is taken out of the queue. -/
theorem not_shared_empty : ¬ ∀ (E : Env) (s : State Empty), Reachable E s →
    Safe s ∧ ((∀ w, (s.workers w).pc = .returned) → Finished E s) := by
  intro h
  have hqueue := ((h twoRequests (init Empty twoRequests) .refl).2 fun w => w.elim).queue
  cases hqueue

end OsProjects.MinifyClient
