import OsProjects.MinifyRuns
import OsProjects.OwnFiles

/-! # The files that the minify client writes

`MinifyClient.lean` takes the content of an input file from the label of a step.  Here the workers of
`proj4/minifyjpeg_main.c` read and write one directory (`FileSystem.lean`): `read_from_file` gets
what is there at that moment, and `write_to_file` opens its file, which empties it, in a step of its
own, so that other workers can find it empty.

* **Environment.** The label says whether `fopen(filename, "w")` succeeds; if not, `write_to_file`
  returns 1, which nobody looks at.
* **Records.** `opened` are the requests whose output file has been opened, with their workers,
  `failed` those where that failed, and `written` the files written.
* `files_minified` — if no two requests have the same output file, and no request reads the output
  of another one, every interleaving leaves the same files behind: those that one worker would
  leave which takes the requests in order. -/

namespace OsProjects.MinifyFiles

open MinifyClient OwnFiles Transition

variable {ω : Type*} [DecidableEq ω]

/-- The client of `MinifyClient.lean`, the files, and the open file of `write_to_file`. -/
structure Client (ω : Type*) where
  state : MinifyClient.State ω
  fs : FileSystem (List Byte) Byte
  outfile : ω → Option ℕ
  opened : List (ω × ℕ)
  failed : List (ω × ℕ)
  written : List (FileCall ω)

def init (ω : Type*) (E : Env) (fs : FileSystem (List Byte) Byte) : Client ω :=
  ⟨MinifyClient.init ω E, fs, fun _ => none, [], [], []⟩

/-- One step of worker `w`. -/
def Client.workerStep (E : Env) (s : Client ω) (w : ω) (opens : Bool) : Option (Client ω) :=
  let c := s.state.workers w
  match c.pc with
  | .read =>
      (MinifyClient.workerStep E s.state w
        (c.request.bind fun i => s.fs.read (E.request i).inputfilename)).map fun t =>
          { s with state := t }
  | .write =>
      match s.outfile w, c.request with
      | none, some i =>
          if opens then
            some { s with
              fs := (s.fs.create (E.request i).outputfilename).1
              outfile := Function.update s.outfile w
                (some (s.fs.create (E.request i).outputfilename).2)
              opened := s.opened ++ [(w, i)] }
          else
            (MinifyClient.workerStep E s.state w none).map fun t =>
              { s with state := t, failed := s.failed ++ [(w, i)] }
      | some k, some i =>
          (MinifyClient.workerStep E s.state w none).map fun t =>
            { s with
              state := t
              fs := s.fs.append k c.dstVal
              outfile := Function.update s.outfile w none
              written := s.written ++ [⟨w, i, (E.request i).outputfilename, c.dstVal⟩] }
      | _, none => none
  | _ => (MinifyClient.workerStep E s.state w none).map fun t => { s with state := t }

/-- One step of the client: of the worker, with the result of its `fopen`. -/
def Client.step (E : Env) (s : Client ω) (a : ω × Bool) : Option (Client ω) :=
  if s.state.exited then none else s.workerStep E a.1 a.2

abbrev Reachable (E : Env) (fs : FileSystem (List Byte) Byte) (s : Client ω) : Prop :=
  Reach (Client.step E) Any (init ω E fs) s

/-- The output files of the requests are different, and none is the input of another request. -/
structure Apart (E : Env) : Prop where
  output : ∀ i < E.requests.length, ∀ j < E.requests.length,
    (E.request i).outputfilename = (E.request j).outputfilename → i = j
  input : ∀ i < E.requests.length, ∀ j < E.requests.length,
    (E.request i).outputfilename = (E.request j).inputfilename → i = j

/-! ### What a step can do -/

section client
variable {E : Env} {s s' : Client ω} {w : ω} {fs₀ : FileSystem (List Byte) Byte}

/-- The moves of worker `w`. -/
inductive Move (E : Env) (s : Client ω) (w : ω) : Client ω → Prop
  | quiet (t : MinifyClient.State ω) (hp : (s.state.workers w).pc ≠ .read)
      (hp' : (s.state.workers w).pc ≠ .write) (h : MinifyClient.Move E s.state w t) :
      Move E s w { s with state := t }
  | read (t : MinifyClient.State ω) (i : ℕ) (hp : (s.state.workers w).pc = .read)
      (hi : (s.state.workers w).request = some i)
      (h : MinifyClient.workerStep E s.state w (s.fs.read (E.request i).inputfilename) = some t) :
      Move E s w { s with state := t }
  | opens (i : ℕ) (hp : (s.state.workers w).pc = .write)
      (hi : (s.state.workers w).request = some i) (ho : s.outfile w = none) :
      Move E s w { s with
        fs := (s.fs.create (E.request i).outputfilename).1
        outfile := Function.update s.outfile w (some (s.fs.create (E.request i).outputfilename).2)
        opened := s.opened ++ [(w, i)] }
  | fails (i : ℕ) (hp : (s.state.workers w).pc = .write)
      (hi : (s.state.workers w).request = some i) (ho : s.outfile w = none) :
      Move E s w { s with
        state := { s.state.goto w .free with
          writes := s.state.writes ++
            [⟨w, i, (E.request i).outputfilename, (s.state.workers w).dstVal⟩] }
        failed := s.failed ++ [(w, i)] }
  | writes (i k : ℕ) (hp : (s.state.workers w).pc = .write)
      (hi : (s.state.workers w).request = some i) (ho : s.outfile w = some k) :
      Move E s w { s with
        state := { s.state.goto w .free with
          writes := s.state.writes ++
            [⟨w, i, (E.request i).outputfilename, (s.state.workers w).dstVal⟩] }
        fs := s.fs.append k (s.state.workers w).dstVal
        outfile := Function.update s.outfile w none
        written := s.written ++
          [⟨w, i, (E.request i).outputfilename, (s.state.workers w).dstVal⟩] }

theorem step_move {a : ω × Bool} (h : s.step E a = some s') : Move E s a.1 s' := by
  unfold Client.step at h
  obtain ⟨_, h⟩ := Option.ite_none_left_eq_some.mp h
  unfold Client.workerStep at h
  cases hp : (s.state.workers a.1).pc with
  | read =>
      simp only [hp] at h
      obtain ⟨t, ht, rfl⟩ := Option.map_eq_some_iff.mp h
      cases hi : (s.state.workers a.1).request with
      | none => simp [MinifyClient.workerStep, hp, hi] at ht
      | some i =>
          rw [hi] at ht
          exact .read t i hp hi ht
  | write =>
      simp only [hp] at h
      cases hi : (s.state.workers a.1).request with
      | none => cases ho : s.outfile a.1 <;> simp [hi, ho] at h
      | some i =>
          have hwrite : MinifyClient.workerStep E s.state a.1 none =
              some { s.state.goto a.1 .free with
                writes := s.state.writes ++
                  [⟨a.1, i, (E.request i).outputfilename, (s.state.workers a.1).dstVal⟩] } := by
            simp [MinifyClient.workerStep, hp, hi]
          simp only [hi, hwrite, Option.map_some] at h
          cases ho : s.outfile a.1 with
          | none =>
              simp only [ho] at h
              split at h
              · exact Option.some.inj h ▸ .opens i hp hi ho
              · exact Option.some.inj h ▸ .fails i hp hi ho
          | some k =>
              simp only [ho, Option.some.injEq] at h
              exact h ▸ .writes i k hp hi ho
  | _ =>
      simp only [hp] at h
      obtain ⟨t, ht, rfl⟩ := Option.map_eq_some_iff.mp h
      exact .quiet t (by simp [hp]) (by simp [hp]) (workerStep_move ht)

/-- The client of `MinifyClient.lean` takes the same steps. -/
theorem Reachable.state (h : Reachable E fs₀ s) : MinifyClient.Reachable E s.state := by
  refine h.map (f := Client.state) fun t a t' _ _ ht => ?_
  unfold Client.step at ht
  obtain ⟨hexited, ht⟩ := Option.ite_none_left_eq_some.mp ht
  have hstep : ∀ file u, MinifyClient.workerStep E t.state a.1 file = some u →
      Reach (MinifyClient.step E) Any t.state u := by
    intro file u hu
    apply Reach.single (a := (a.1, file)) trivial
    rwa [MinifyClient.step, if_neg hexited]
  unfold Client.workerStep at ht
  dsimp only at ht
  split at ht
  · obtain ⟨u, hu, rfl⟩ := Option.map_eq_some_iff.mp ht
    exact hstep _ u hu
  · split at ht
    · split at ht
      · obtain rfl := Option.some.inj ht
        exact .refl
      · obtain ⟨u, hu, rfl⟩ := Option.map_eq_some_iff.mp ht
        exact hstep _ u hu
    · obtain ⟨u, hu, rfl⟩ := Option.map_eq_some_iff.mp ht
      exact hstep _ u hu
    · cases ht
  · obtain ⟨u, hu, rfl⟩ := Option.map_eq_some_iff.mp ht
    exact hstep _ u hu

/-! ### The requests -/

/-- Requests whose file has been opened are taken, and written or being written; all calls of
`write_to_file` have written their file or failed to open it. -/
structure Tracked (s : Client ω) : Prop where
  opened : ∀ x ∈ s.opened, x ∈ s.state.popped ∧ (x ∈ s.state.writes.map FileCall.owner ∨
    (s.state.workers x.1).request = some x.2 ∧ (s.outfile x.1).isSome = true)
  outfile : ∀ v, (s.outfile v).isSome = true → (s.state.workers v).pc = .write ∧
    ∃ i, (s.state.workers v).request = some i ∧ (v, i) ∈ s.opened
  failed : ∀ x ∈ s.failed, x ∈ s.state.writes.map FileCall.owner ∧ x ∉ s.opened
  written : ∀ x ∈ s.written, x ∈ s.state.writes ∧ x.owner ∈ s.opened
  all : ∀ x ∈ s.state.writes, x ∈ s.written ∨ x.owner ∈ s.failed

omit [DecidableEq ω] in
theorem Tracked.state (hT : Tracked s) {t : MinifyClient.State ω}
    (hp : (s.state.workers w).pc ≠ .write)
    (hframe : ∀ v ≠ w, t.workers v = s.state.workers v) (hpopped : s.state.popped ⊆ t.popped)
    (hwrites : t.writes = s.state.writes) : Tracked { s with state := t } := by
  have hidle : ∀ v, (s.outfile v).isSome = true → t.workers v = s.state.workers v := by
    intro v hv
    apply hframe v
    rintro rfl
    exact hp (hT.outfile v hv).1
  refine ⟨fun x hx => ?_, fun v hv => ?_, ?_, ?_, ?_⟩
  · obtain ⟨hmem, h⟩ := hT.opened x hx
    refine ⟨hpopped hmem, ?_⟩
    dsimp only
    rw [hwrites]
    apply h.imp_right
    rintro ⟨hi, ho⟩
    rw [hidle x.1 ho]
    exact ⟨hi, ho⟩
  · dsimp only
    rw [hidle v hv]
    exact hT.outfile v hv
  · dsimp only
    rw [hwrites]
    exact hT.failed
  · dsimp only
    rw [hwrites]
    exact hT.written
  · dsimp only
    rw [hwrites]
    exact hT.all

theorem records_of_move {t t' : MinifyClient.State ω} (h : MinifyClient.Move E t w t')
    (hp : (t.workers w).pc ≠ .write) : t.popped ⊆ t'.popped ∧ t'.writes = t.writes := by
  cases h with
  | pop i q hp hq => exact ⟨List.subset_append_left _ _, rfl⟩
  | write i hp' hi => exact absurd hp' hp
  | _ => exact ⟨List.Subset.refl _, rfl⟩

omit [DecidableEq ω] in
/-- The request of a worker that is about to write. -/
theorem pending_of_write {i : ℕ} (hB : Books E s.state) (hp : (s.state.workers w).pc = .write)
    (hi : (s.state.workers w).request = some i) :
    (w, i) ∈ s.state.popped ∧ (w, i) ∉ s.state.writes.map FileCall.owner :=
  hB.writes.pending w i (by rw [Worker.toWrite, hp, hi])

theorem Tracked.opens {i k : ℕ} {fs : FileSystem (List Byte) Byte} (hT : Tracked s)
    (hB : Books E s.state) (hp : (s.state.workers w).pc = .write)
    (hi : (s.state.workers w).request = some i) :
    Tracked { s with
      fs := fs, outfile := Function.update s.outfile w (some k), opened := s.opened ++ [(w, i)] } := by
  obtain ⟨hpopped, hnot⟩ := pending_of_write hB hp hi
  refine ⟨fun x hx => ?_, fun v hv => ?_, fun x hx => ?_, fun x hx => ?_, hT.all⟩
  · obtain hx | hx := List.mem_append.mp hx
    · obtain ⟨hmem, h⟩ := hT.opened x hx
      refine ⟨hmem, h.imp_right ?_⟩
      rintro ⟨hx', ho⟩
      refine ⟨hx', ?_⟩
      by_cases hxw : x.1 = w
      · simp [hxw]
      · simpa [hxw] using ho
    · obtain rfl := List.mem_singleton.mp hx
      exact ⟨hpopped, .inr ⟨hi, by simp⟩⟩
  · by_cases hvw : v = w
    · rw [hvw]
      exact ⟨hp, i, hi, by simp⟩
    · obtain ⟨hv', j, hj, hmem⟩ := hT.outfile v (by simpa [hvw] using hv)
      exact ⟨hv', j, hj, List.mem_append_left _ hmem⟩
  · obtain ⟨hx', hne⟩ := hT.failed x hx
    refine ⟨hx', fun hmem => ?_⟩
    obtain hmem | hmem := List.mem_append.mp hmem
    · exact hne hmem
    · exact hnot (List.mem_singleton.mp hmem ▸ hx')
  · obtain ⟨hx', hmem⟩ := hT.written x hx
    exact ⟨hx', List.mem_append_left _ hmem⟩

theorem Tracked.fails {i : ℕ} {x : FileCall ω} (hT : Tracked s) (hB : Books E s.state)
    (hp : (s.state.workers w).pc = .write) (hi : (s.state.workers w).request = some i)
    (ho : s.outfile w = none) (hx : x.owner = (w, i)) :
    Tracked { s with
      state := { s.state.goto w .free with writes := s.state.writes ++ [x] }
      failed := s.failed ++ [(w, i)] } := by
  obtain ⟨_, hnot⟩ := pending_of_write hB hp hi
  have hidle : ∀ v, (s.outfile v).isSome = true →
      (s.state.goto w .free).workers v = s.state.workers v := by
    intro v hv
    apply setWorker_of_ne
    rintro rfl
    rw [ho] at hv
    cases hv
  have hlater : ∀ y ∈ s.state.writes.map FileCall.owner,
      y ∈ (s.state.writes ++ [x]).map FileCall.owner := by
    intro y hy
    rw [List.map_append]
    exact List.mem_append_left _ hy
  refine ⟨fun y hy => ?_, fun v hv => ?_, fun y hy => ?_, fun y hy => ?_, fun y hy => ?_⟩
  · obtain ⟨hmem, h⟩ := hT.opened y hy
    refine ⟨hmem, ?_⟩
    obtain h | ⟨hj, hsome⟩ := h
    · exact .inl (hlater y h)
    · refine .inr ⟨?_, hsome⟩
      dsimp only
      rw [hidle y.1 hsome]
      exact hj
  · dsimp only
    rw [hidle v hv]
    exact hT.outfile v hv
  · obtain hy | hy := List.mem_append.mp hy
    · exact ⟨hlater y (hT.failed y hy).1, (hT.failed y hy).2⟩
    · obtain rfl := List.mem_singleton.mp hy
      refine ⟨by simp [hx], fun hmem => ?_⟩
      obtain ⟨_, h | ⟨_, hsome⟩⟩ := hT.opened _ hmem
      · exact hnot h
      · rw [ho] at hsome
        cases hsome
  · exact ⟨List.mem_append_left _ (hT.written y hy).1, (hT.written y hy).2⟩
  · obtain hy | hy := List.mem_append.mp hy
    · exact (hT.all y hy).imp_right (List.mem_append_left _)
    · rw [List.mem_singleton.mp hy, hx]
      exact .inr (by simp)

theorem Tracked.writes {i k : ℕ} {x : FileCall ω} {fs : FileSystem (List Byte) Byte}
    (hT : Tracked s) (hi : (s.state.workers w).request = some i) (ho : s.outfile w = some k)
    (hx : x.owner = (w, i)) :
    Tracked { s with
      state := { s.state.goto w .free with writes := s.state.writes ++ [x] }
      fs := fs
      outfile := Function.update s.outfile w none
      written := s.written ++ [x] } := by
  obtain ⟨_, j, hj, hopened⟩ := hT.outfile w (by simp [ho])
  obtain rfl := Option.some.inj (hi.symm.trans hj)
  have hlater : ∀ y ∈ s.state.writes.map FileCall.owner,
      y ∈ (s.state.writes ++ [x]).map FileCall.owner := by
    intro y hy
    rw [List.map_append]
    exact List.mem_append_left _ hy
  refine ⟨fun y hy => ?_, fun v hv => ?_, fun y hy => ?_, fun y hy => ?_, fun y hy => ?_⟩
  · obtain ⟨hmem, h⟩ := hT.opened y hy
    refine ⟨hmem, ?_⟩
    obtain h | ⟨hy', hsome⟩ := h
    · exact .inl (hlater y h)
    · by_cases hyw : y.1 = w
      · rw [hyw, hi] at hy'
        have hyx : y = x.owner := by
          rw [hx, ← hyw, Option.some.inj hy']
        exact .inl (by simp [hyx])
      · refine .inr ⟨?_, by simpa [hyw] using hsome⟩
        simpa [State.goto, State.setWorker, hyw] using hy'
  · by_cases hvw : v = w
    · simp [hvw] at hv
    · have hv' := hT.outfile v (by simpa [hvw] using hv)
      simpa [State.goto, State.setWorker, hvw] using hv'
  · exact ⟨hlater y (hT.failed y hy).1, (hT.failed y hy).2⟩
  · obtain hy | hy := List.mem_append.mp hy
    · exact ⟨List.mem_append_left _ (hT.written y hy).1, (hT.written y hy).2⟩
    · rw [List.mem_singleton.mp hy]
      exact ⟨by simp, hx ▸ hopened⟩
  · obtain hy | hy := List.mem_append.mp hy
    · exact (hT.all y hy).imp_left (List.mem_append_left _)
    · exact .inl (List.mem_append_right _ hy)

theorem Tracked.move (hT : Tracked s) (hB : Books E s.state) (h : Move E s w s') : Tracked s' := by
  cases h with
  | quiet t hp hp' h =>
      obtain ⟨hpopped, hwrites⟩ := records_of_move h hp'
      exact hT.state hp' h.frame hpopped hwrites
  | read t i hp hi h =>
      have hp' : (s.state.workers w).pc ≠ .write := by simp [hp]
      obtain ⟨hpopped, hwrites⟩ := records_of_move (workerStep_move h) hp'
      exact hT.state hp' (workerStep_move h).frame hpopped hwrites
  | opens i hp hi ho => exact hT.opens hB hp hi
  | fails i hp hi ho => exact hT.fails hB hp hi ho rfl
  | writes i k hp hi ho => exact hT.writes hi ho rfl

theorem Reachable.tracked (h : Reachable E fs₀ s) : Tracked s := by
  refine h.invariant_of (I := Tracked)
    (fun t ht => MinifyClient.Reachable.books (Reachable.state ht)) ?_ ?_
  · exact ⟨List.forall_mem_nil _, fun _ hv => absurd hv Bool.false_ne_true, List.forall_mem_nil _,
      List.forall_mem_nil _, List.forall_mem_nil _⟩
  · intro t a t' hB hT _ ht
    exact hT.move hB (step_move ht)

/-! ### The files -/

/-- The client as processes that write to files of their own. -/
def Client.files (E : Env) (s : Client ω) : OwnFiles.State ω (List Byte) Byte where
  fs := s.fs
  current w := (s.outfile w).bind fun k => (s.state.workers w).request.map fun i =>
    ⟨(E.request i).outputfilename, k, some []⟩
  opened := s.opened.map fun x => (E.request x.2).outputfilename
  closed := s.written.map fun x => (x.filename, some x.bytes)

omit [DecidableEq ω] in
/-- A request that has been taken is one of the workload, and has been taken by one worker. -/
theorem taken_lt {t : MinifyClient.State ω} (hB : Books E t) {x : ω × ℕ} (hx : x ∈ t.popped) :
    x.2 < E.requests.length := by
  have hmem : x.2 ∈ t.popped.map Prod.snd ++ t.queue :=
    List.mem_append_left _ (List.mem_map_of_mem hx)
  rw [hB.order] at hmem
  exact List.mem_range.mp hmem

omit [DecidableEq ω] in
theorem taken_unique {t : MinifyClient.State ω} (hB : Books E t) {x y : ω × ℕ} (hx : x ∈ t.popped)
    (hy : y ∈ t.popped) (h : x.2 = y.2) : x = y := by
  have hnodup : (t.popped.map Prod.snd ++ t.queue).Nodup := hB.order ▸ List.nodup_range
  exact List.inj_on_of_nodup_map (List.nodup_append.mp hnodup).1 hx hy h

omit [DecidableEq ω] in
/-- A request that a worker has still to write, and whose file it has not opened: nobody has. -/
theorem Tracked.not_opened {i : ℕ} (hT : Tracked s) (hB : Books E s.state)
    (hw : (s.state.workers w).toWrite = some i) (ho : s.outfile w = none) {x : ω × ℕ}
    (hx : x ∈ s.opened) : x.2 ≠ i := by
  intro hxi
  obtain ⟨hpopped, hnot⟩ := hB.writes.pending w i hw
  obtain ⟨hmem, h⟩ := hT.opened x hx
  obtain rfl := taken_unique hB hmem hpopped hxi
  obtain h | ⟨_, hsome⟩ := h
  · exact hnot h
  · rw [ho] at hsome
    cases hsome

omit [DecidableEq ω] in
theorem Tracked.outfile_none (hT : Tracked s) (hp : (s.state.workers w).pc ≠ .write) :
    s.outfile w = none := by
  apply Option.not_isSome_iff_eq_none.mp
  intro ho
  exact hp (hT.outfile w ho).1

/-- A step of worker `w` that has no file open. -/
theorem files_same (ho : s.outfile w = none) (ho' : s'.outfile = s.outfile)
    (hframe : ∀ v ≠ w, s'.state.workers v = s.state.workers v) (hfs : s'.fs = s.fs)
    (hopened : s'.opened = s.opened) (hwritten : s'.written = s.written) :
    Reach OwnFiles.step Any (s.files E) (s'.files E) := by
  have heq : s'.files E = s.files E := by
    unfold Client.files
    rw [hfs, hopened, hwritten, ho']
    congr 1
    funext v
    by_cases hvw : v = w
    · rw [hvw, ho]
      rfl
    · rw [hframe v hvw]
  rw [heq]
  exact .refl

/-- **Every move is one of a process with a file of its own.** -/
theorem Move.files (hA : Apart E) (hT : Tracked s) (hB : Books E s.state) (h : Move E s w s') :
    Reach OwnFiles.step Any (s.files E) (s'.files E) := by
  cases h with
  | quiet t hp hp' h => exact files_same (hT.outfile_none hp') rfl h.frame rfl rfl rfl
  | read t i hp hi h =>
      have hp' : (s.state.workers w).pc ≠ .write := by simp [hp]
      exact files_same (hT.outfile_none hp') rfl (workerStep_move h).frame rfl rfl rfl
  | fails i hp hi ho =>
      exact files_same ho rfl (fun v hv => setWorker_of_ne s.state _ hv) rfl rfl rfl
  | opens i hp hi ho =>
      have hw : (s.files E).current w = none := by simp [Client.files, ho]
      have hpending := pending_of_write hB hp hi
      have hnew : (E.request i).outputfilename ∉ (s.files E).opened := by
        intro hmem
        obtain ⟨x, hx, heq⟩ := List.mem_map.mp hmem
        have hxi := hA.output x.2 (taken_lt hB (hT.opened x hx).1) i (taken_lt hB hpending.1) heq
        exact hT.not_opened hB (by rw [Worker.toWrite, hp, hi]) ho hx hxi
      apply Reach.single (a := (w, .create (E.request i).outputfilename)) trivial
      rw [step_create hw hnew]
      simp only [Client.files, List.map_append, List.map_singleton, Option.some.injEq]
      congr 1
      funext v
      by_cases hvw : v = w
      · simp [hvw, hi]
      · simp [hvw]
  | writes i k hp hi ho =>
      have hw : (s.files E).current w = some ⟨(E.request i).outputfilename, k, some []⟩ := by
        simp [Client.files, ho, hi]
      apply (Reach.single (a := (w, .append (s.state.workers w).dstVal)) trivial
        (step_append hw _)).step (a := (w, .close)) trivial
      rw [step_close (Function.update_self _ _ _)]
      simp only [Client.files, List.map_append, List.map_singleton, Option.some.injEq,
        List.nil_append]
      congr 1
      funext v
      by_cases hvw : v = w
      · simp [hvw]
      · simp [hvw, State.goto, State.setWorker]

theorem Reachable.own (hA : Apart E) (h : Reachable E fs₀ s) : Own fs₀ (s.files E) := by
  apply own_of_reach
  refine h.map (f := Client.files E) fun t a t' ht _ hs => ?_
  exact (step_move hs).files hA (Reachable.tracked ht)
    (MinifyClient.Reachable.books (Reachable.state ht))

/-- What has been read is what was there at the start; only a file that was not there makes the
client exit. -/
structure Inputs (E : Env) (fs : FileSystem (List Byte) Byte) (t : MinifyClient.State ω) : Prop where
  reads : ∀ x ∈ t.reads, fs.read x.filename = some x.bytes
  exited : t.exited = true →
    ∃ i < E.requests.length, fs.read (E.request i).inputfilename = none

theorem Inputs.move {t t' : MinifyClient.State ω} (hI : Inputs E fs₀ t)
    (hQ : MinifyClient.Queue t) (hp : (t.workers w).pc ≠ .read)
    (h : MinifyClient.Move E t w t') : Inputs E fs₀ t' := by
  cases h with
  | underflow hp' hq => exact absurd hq (hQ.safe.pop w hp')
  | missing hp' | read i bytes hp' hi => exact absurd hp' hp
  | _ => exact ⟨hI.reads, hI.exited⟩

omit [DecidableEq ω] in
/-- A worker reads what was there at the start. -/
theorem read_eq {i : ℕ} (hA : Apart E) (hT : Tracked s) (hB : Books E s.state)
    (hO : Own fs₀ (s.files E)) (hp : (s.state.workers w).pc = .read)
    (hi : (s.state.workers w).request = some i) :
    i < E.requests.length ∧
      s.fs.read (E.request i).inputfilename = fs₀.read (E.request i).inputfilename := by
  have hw : (s.state.workers w).toWrite = some i := by rw [Worker.toWrite, hp, hi]
  have hlt := taken_lt hB (hB.writes.pending w i hw).1
  refine ⟨hlt, hO.rest _ fun hmem => ?_⟩
  obtain ⟨x, hx, heq⟩ := List.mem_map.mp hmem
  have hxi := hA.input x.2 (taken_lt hB (hT.opened x hx).1) i hlt heq
  exact hT.not_opened hB hw (hT.outfile_none (by simp [hp])) hx hxi

theorem Inputs.step (hA : Apart E) (hT : Tracked s) (hr : MinifyClient.Reachable E s.state)
    (hO : Own fs₀ (s.files E)) (hI : Inputs E fs₀ s.state) (h : Move E s w s') :
    Inputs E fs₀ s'.state := by
  have hB := MinifyClient.Reachable.books hr
  cases h with
  | quiet t hp hp' h => exact hI.move (MinifyClient.Reachable.queue hr) hp h
  | read t i hp hi h =>
      obtain ⟨hlt, hread⟩ := read_eq hA hT hB hO hp hi
      rw [hread] at h
      unfold MinifyClient.workerStep at h
      simp only [hp, hi, Option.map_some, Option.some.injEq] at h
      cases hfile : fs₀.read (E.request i).inputfilename with
      | none =>
          simp only [hfile] at h
          obtain rfl := h
          exact ⟨hI.reads, fun _ => ⟨i, hlt, hfile⟩⟩
      | some bytes =>
          simp only [hfile] at h
          obtain rfl := h
          refine ⟨fun x hx => ?_, hI.exited⟩
          obtain hx | hx := List.mem_append.mp hx
          · exact hI.reads x hx
          · rw [List.mem_singleton.mp hx]
            exact hfile
  | opens i hp hi ho => exact hI
  | fails i hp hi ho => exact ⟨hI.reads, hI.exited⟩
  | writes i k hp hi ho => exact ⟨hI.reads, hI.exited⟩

theorem Reachable.inputs (hA : Apart E) (h : Reachable E fs₀ s) : Inputs E fs₀ s.state := by
  refine h.invariant_of (I := fun t => Inputs E fs₀ t.state) (fun t ht => ht) ?_ ?_
  · refine ⟨List.forall_mem_nil _, fun hexited => ?_⟩
    cases hexited
  · intro t a t' ht hI _ hs
    exact hI.step hA (Reachable.tracked ht) (Reachable.state ht) (Reachable.own hA ht)
      (step_move hs)

/-- **The files are minified**: if no two requests have the same output file, and no request reads
the output of another one, then in every interleaving the client exits only if an input file was not
there at the start; a file that has been written has what the server makes of the input file as it
was at the start; and when all workers have returned these are the output files of all requests but
those that could not be opened, and all other files are as they were. -/
theorem files_minified [Nonempty ω] (E : Env) (hA : Apart E) (fs : FileSystem (List Byte) Byte)
    (s : Client ω) (h : Reachable E fs s) :
    (s.state.exited = true →
      ∃ i < E.requests.length, fs.read (E.request i).inputfilename = none) ∧
    (∀ x ∈ s.written, ∃ bytes, fs.read (E.request x.request).inputfilename = some bytes ∧
      s.fs.read (E.request x.request).outputfilename = some (E.minify bytes)) ∧
    ((∀ w, (s.state.workers w).pc = .returned) →
      (∀ i < E.requests.length, i ∉ s.failed.map Prod.snd →
        ∃ bytes, fs.read (E.request i).inputfilename = some bytes ∧
          s.fs.read (E.request i).outputfilename = some (E.minify bytes)) ∧
      ∀ n, (∀ i < E.requests.length, i ∉ s.failed.map Prod.snd →
        (E.request i).outputfilename ≠ n) → s.fs.read n = fs.read n) := by
  have hr := Reachable.state h
  have hB := MinifyClient.Reachable.books hr
  have hT := Reachable.tracked h
  have hO := Reachable.own hA h
  have hI := Reachable.inputs hA h
  have hwritten : ∀ x ∈ s.written, ∃ bytes,
      fs.read (E.request x.request).inputfilename = some bytes ∧
        s.fs.read (E.request x.request).outputfilename = some (E.minify bytes) := by
    intro x hx
    obtain ⟨hname, bytes, hread, hbytes⟩ := hB.output x (hT.written x hx).1
    refine ⟨bytes, hI.reads _ hread, ?_⟩
    rw [← hname, ← hbytes]
    exact (hO.closed (x.filename, some x.bytes) (List.mem_map.mpr ⟨x, hx, rfl⟩)).2
  refine ⟨hI.exited, hwritten, fun hret => ⟨fun i hi hfailed => ?_, fun n hn => ?_⟩⟩
  · obtain ⟨w⟩ := ‹Nonempty ω›
    have hqueue := MinifyClient.Reachable.drained hr w (by rw [hret w]; rfl)
    have hF := hB.finished (MinifyClient.Reachable.queue hr) hqueue hret
    have hmem : i ∈ s.state.popped.map Prod.snd := hF.taken.mem_iff.mpr (List.mem_range.mpr hi)
    obtain ⟨p, hp, hpi⟩ := List.mem_map.mp hmem
    obtain ⟨x, hx, hxp⟩ := List.mem_map.mp (hF.written.mem_iff.mpr hp)
    have hxi : x.request = i := by
      rw [← hpi, ← hxp]
      rfl
    obtain hx | hx := hT.all x hx
    · rw [← hxi]
      exact hwritten x hx
    · exact absurd (List.mem_map.mpr ⟨_, hx, hxi⟩) hfailed
  · apply hO.closed_of_idle
    · intro w
      have ho := hT.outfile_none (w := w) (by simp [hret w])
      simp [Client.files, ho]
    · intro hmem
      obtain ⟨y, hy, rfl⟩ := List.mem_map.mp hmem
      obtain ⟨x, hx, rfl⟩ := List.mem_map.mp hy
      obtain ⟨hx', hopened⟩ := hT.written x hx
      have htaken := (hT.opened _ hopened).1
      apply hn x.request (taken_lt hB htaken)
      · intro hfailed
        obtain ⟨z, hz, hzx⟩ := List.mem_map.mp hfailed
        obtain ⟨hz', hnot⟩ := hT.failed z hz
        have hsame : z = x.owner := taken_unique hB (hB.writes.subset hz') htaken hzx
        exact hnot (hsame ▸ hopened)
      · exact (hB.output x hx').1.symm

end client

/-- The files of the two requests of `MinifyWork.lean`. -/
def twoFiles : FileSystem (List Byte) Byte :=
  (((FileSystem.empty _ _).make [97]).append 0 [1, 2]).make [99]

/-- Two workers, one request each; the second output file cannot be opened. -/
def twoRun : List (Bool × Bool) :=
  List.replicate 4 (true, true) ++ List.replicate 4 (false, false) ++
    List.replicate 4 (true, true) ++ List.replicate 7 (false, false) ++
    List.replicate 4 (true, true)

def twoStart : Client Bool := init Bool twoRequests twoFiles

def twoEnd : Client Bool := (exec (Client.step twoRequests) twoStart twoRun).getD twoStart

theorem apart_two : Apart twoRequests := by
  constructor <;> decide +kernel

theorem files_minified_two :
    (∃ bytes, twoFiles.read [97] = some bytes ∧ twoEnd.fs.read [98] = some bytes.reverse) ∧
      ∀ n, n ≠ [98] → twoEnd.fs.read n = twoFiles.read n := by
  have hret : ∀ w, (twoEnd.state.workers w).pc = .returned := by decide +kernel
  have hfailed : twoEnd.failed.map Prod.snd = [1] := by decide +kernel
  obtain ⟨_, _, h⟩ := files_minified twoRequests apart_two twoFiles twoEnd
    (reach_of_isSome twoRun (by decide +kernel))
  obtain ⟨hfiles, hrest⟩ := h hret
  rw [hfailed] at hfiles hrest
  refine ⟨hfiles 0 (by decide) (by decide), fun n hn => hrest n ?_⟩
  intro i hi hne heq
  have hi : i < 2 := hi
  have hne : i ≠ 1 := by simpa using hne
  obtain rfl : i = 0 := by omega
  exact hn heq.symm

end OsProjects.MinifyFiles
