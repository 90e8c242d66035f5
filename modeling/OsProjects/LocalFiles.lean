import OsProjects.DownloadRuns
import OsProjects.LocalNames
import OsProjects.OwnFiles

/-! # The files that the download client leaves behind

`proj1/multithreadgetfile/gfclient_download.c` writes every download to a file of its own, through
`writecb`, and unlinks the file of a download that fails: behind `gfc_perform` if that returned an
error, and once more, or for the first time, if the status is not `GF_OK`.

* **Files.** The client runs in a directory of files (`FileSystem.lean`); the workers share it, and a
  file is known by the name that `localPath` made.  Nobody else writes there, and the directories
  that `openFile` makes are not modelled.
* **Environment.** The label of a step is the call that `gfc_perform` makes of `writecb`, or the
  result of a call of the client library, or the failure of `openFile`, which ends the process.
* **Records.** `got` are the bytes that `writecb` has been given for the present request of a worker,
  and `done` the requests that are over.
* `files_kept` — at every moment the files of the requests that are over are those of the successful
  downloads, whole; when all workers have ended these are all files. -/

namespace OsProjects.LocalFiles

open MtDownload LocalNames OwnFiles Transition

variable {ω : Type*} [DecidableEq ω]

/-- A request that is over: what `gfc_perform` and `gfc_get_status` returned, and the bytes written. -/
structure Download (ω : Type*) where
  worker : ω
  path : Ptr
  name : List Byte
  bytes : List Byte
  returncode : ℤ
  status : ℤ
deriving DecidableEq, Repr

/-- The content of the file of a request that is over: none if the download failed. -/
def Download.kept (d : Download ω) : Option (List Byte) :=
  if 0 ≤ d.returncode ∧ d.status = gfOk then some d.bytes else none

omit [DecidableEq ω] in
theorem kept_of_ok {d : Download ω} (h : d.status = gfOk) :
    d.kept = if d.returncode < 0 then none else some d.bytes := by
  unfold Download.kept
  by_cases hneg : d.returncode < 0
  · rw [if_pos hneg, if_neg fun h => absurd hneg (not_lt.mpr h.1)]
  · rw [if_neg hneg, if_pos ⟨not_lt.mp hneg, h⟩]

omit [DecidableEq ω] in
theorem kept_of_ne {d : Download ω} (h : d.status ≠ gfOk) : d.kept = none :=
  if_neg fun hd => h hd.2

/-- What the environment does in a step of a worker. -/
inductive Call where
  | writecb (data : List Byte)
  | returns (r : ℤ)
  | openFails
deriving DecidableEq, Repr

/-- The client of `MtDownload.lean` and its files; `file` are the `FILE *` of the workers. -/
structure Client (ω : Type*) where
  state : State ω
  fs : FileSystem (List Byte) Byte
  file : ω → ℕ
  got : ω → List Byte
  exited : Bool
  done : List (Download ω)

def init (ω : Type*) [Fintype ω] (nrequests : ℤ) (workload : ℕ → List Byte)
    (fs : FileSystem (List Byte) Byte) : Client ω :=
  ⟨MtDownload.init ω nrequests workload, fs, fun _ => 0, fun _ => [], false, []⟩

/-- The file operation of the step that worker `w` takes. -/
def Client.fileStep (s : Client ω) (w : ω) (r : ℤ) : Client ω :=
  let c := s.state.workers w
  match c.pc with
  | .openFile =>
      { s with
        fs := (s.fs.create c.localPath).1
        file := Function.update s.file w (s.fs.create c.localPath).2
        got := Function.update s.got w [] }
  | .close => { s with fs := if c.returncode < 0 then s.fs.unlink c.localPath else s.fs }
  | .checkStatus =>
      { s with
        fs := if r ≠ gfOk then s.fs.unlink c.localPath else s.fs
        done := s.done ++ [⟨w, c.treqPath, c.localPath, s.got w, c.returncode, r⟩] }
  | _ => s

/-- One step of worker `w`. -/
def Client.step (s : Client ω) (a : ω × Call) : Option (Client ω) :=
  if s.exited then none
  else match a.2 with
    | .writecb data =>
        if (s.state.workers a.1).pc = .perform then
          some { s with
            fs := s.fs.append (s.file a.1) data
            got := Function.update s.got a.1 (s.got a.1 ++ data) }
        else none
    | .openFails =>
        if (s.state.workers a.1).pc = .openFile then some { s with exited := true } else none
    | .returns r =>
        (MtDownload.step s.state (a.1, r)).map fun t => { s.fileStep a.1 r with state := t }

abbrev Reachable [Fintype ω] (nrequests : ℤ) (workload : ℕ → List Byte)
    (fs : FileSystem (List Byte) Byte) (s : Client ω) : Prop :=
  Reach Client.step Any (init ω nrequests workload fs) s

/-! ### Steps of a worker -/

/-- The worker has its file open, or has still to look whether it is to be removed. -/
def inUse : Pc → Bool
  | .unlock | .perform | .close | .checkStatus => true
  | _ => false

/-- The worker has called `gfc_perform` and its request is not over. -/
def performed : Pc → Bool
  | .close | .checkStatus => true
  | _ => false

/-- The name was made from the path. -/
def NamedAfter (path : Ptr) (name : List Byte) : Prop :=
  ∃ p counter, path = some p ∧ name = localPath p counter

section move
variable {s s' : State ω} {w : ω} {r : ℤ}

/-- A step at a point that has nothing to do with files; the next name is made from the path. -/
theorem workerStep_quiet (h : workerStep s w r = some s') (hp : inUse (s.workers w).pc = false)
    (hopen : (s.workers w).pc ≠ .openFile) :
    inUse (s'.workers w).pc = false ∧ s'.opened = s.opened ∧ s'.requested = s.requested ∧
      ((s'.workers w).pc = .openFile →
        NamedAfter (s'.workers w).treqPath (s'.workers w).localPath) := by
  unfold workerStep State.goto at h
  cases hc : (s.workers w).pc with
  | openFile => exact absurd hc hopen
  | unlock | perform | close | checkStatus =>
      rw [hc] at hp
      cases hp
  | ended | endedLocked => simp [hc] at h
  | test | isempty | nullTest =>
      simp only [hc, Option.some.injEq] at h
      obtain rfl := h
      refine ⟨?_, rfl, rfl, ?_⟩
      · rw [setWorker_self]
        dsimp only
        split <;> rfl
      · rw [setWorker_self]
        dsimp only
        split <;> simp
  | lock =>
      simp only [hc] at h
      obtain ⟨_, h⟩ := Option.ite_none_right_eq_some.mp h
      obtain rfl := Option.some.inj h
      refine ⟨?_, rfl, rfl, ?_⟩
      · simp [inUse]
      · simp
  | unlockEmpty | cleanup =>
      simp only [hc, Option.some.injEq] at h
      obtain rfl := h
      refine ⟨?_, rfl, rfl, ?_⟩
      · simp [inUse]
      · simp
  | pop =>
      simp only [hc] at h
      split at h
      · obtain rfl := Option.some.inj h
        exact ⟨by simp [hc, inUse], rfl, rfl, by simp [hc]⟩
      · obtain rfl := Option.some.inj h
        exact ⟨by simp [inUse], rfl, rfl, by simp⟩
  | localPath =>
      simp only [hc] at h
      obtain ⟨p, hpath, rfl⟩ := Option.map_eq_some_iff.mp h
      refine ⟨by simp [inUse], rfl, rfl, fun _ => ⟨p, s.counter, ?_, ?_⟩⟩
      · simpa using hpath
      · simp

end move

section client
variable {s s' : Client ω} {w : ω} {fs₀ : FileSystem (List Byte) Byte}

/-- The moves of worker `w`. -/
inductive Move (s : Client ω) (w : ω) : Client ω → Prop
  | writecb (data : List Byte) (hp : (s.state.workers w).pc = .perform) :
      Move s w { s with
        fs := s.fs.append (s.file w) data
        got := Function.update s.got w (s.got w ++ data) }
  | openFails (hp : (s.state.workers w).pc = .openFile) : Move s w { s with exited := true }
  | quiet (t : State ω) (r : ℤ) (hp : inUse (s.state.workers w).pc = false)
      (hopen : (s.state.workers w).pc ≠ .openFile) (h : workerStep s.state w r = some t) :
      Move s w { s with state := t }
  | opens (hp : (s.state.workers w).pc = .openFile) :
      Move s w { s with
        state := { s.state.goto w .unlock with
          opened := s.state.opened ++ [(w, (s.state.workers w).localPath)] }
        fs := (s.fs.create (s.state.workers w).localPath).1
        file := Function.update s.file w (s.fs.create (s.state.workers w).localPath).2
        got := Function.update s.got w [] }
  | unlock (hp : (s.state.workers w).pc = .unlock) :
      Move s w { s with state := { s.state.goto w .perform with workqlock := none } }
  | perform (r : ℤ) (hp : (s.state.workers w).pc = .perform) :
      Move s w { s with
        state := { s.state.setWorker w { s.state.workers w with returncode := r, pc := .close } with
          requested := s.state.requested ++ [(w, (s.state.workers w).treqPath)] } }
  | close (unlinked : List (List Byte)) (hp : (s.state.workers w).pc = .close) :
      Move s w { s with
        state := { s.state.goto w .checkStatus with unlinked := unlinked }
        fs := if (s.state.workers w).returncode < 0 then s.fs.unlink (s.state.workers w).localPath
          else s.fs }
  | checkStatus (r : ℤ) (unlinked : List (List Byte))
      (hp : (s.state.workers w).pc = .checkStatus) :
      Move s w { s with
        state := { s.state.goto w .cleanup with unlinked := unlinked }
        fs := if r ≠ gfOk then s.fs.unlink (s.state.workers w).localPath else s.fs
        done := s.done ++ [⟨w, (s.state.workers w).treqPath, (s.state.workers w).localPath, s.got w,
          (s.state.workers w).returncode, r⟩] }

theorem step_move {a : ω × Call} (h : s.step a = some s') : Move s a.1 s' := by
  unfold Client.step at h
  obtain ⟨_, h⟩ := Option.ite_none_left_eq_some.mp h
  cases hcall : a.2 with
  | writecb data =>
      simp only [hcall] at h
      obtain ⟨hp, h⟩ := Option.ite_none_right_eq_some.mp h
      exact Option.some.inj h ▸ .writecb data hp
  | openFails =>
      simp only [hcall] at h
      obtain ⟨hp, h⟩ := Option.ite_none_right_eq_some.mp h
      exact Option.some.inj h ▸ .openFails hp
  | returns r =>
      simp only [hcall, Option.map_eq_some_iff] at h
      obtain ⟨t, ht, rfl⟩ := h
      unfold MtDownload.step at ht
      obtain ⟨_, ht⟩ := Option.ite_none_left_eq_some.mp ht
      have hstep := ht
      unfold workerStep at ht
      unfold Client.fileStep
      cases hp : (s.state.workers a.1).pc with
      | openFile =>
          simp only [hp, Option.some.injEq] at ht
          subst ht
          simp only [hp]
          exact .opens hp
      | unlock =>
          simp only [hp, Option.some.injEq] at ht
          subst ht
          simp only [hp]
          exact .unlock hp
      | perform =>
          simp only [hp, Option.some.injEq] at ht
          subst ht
          simp only [hp]
          exact .perform r hp
      | close =>
          simp only [hp, Option.some.injEq] at ht
          subst ht
          simp only [hp]
          exact .close _ hp
      | checkStatus =>
          simp only [hp, Option.some.injEq] at ht
          subst ht
          simp only [hp]
          exact .checkStatus r _ hp
      | _ =>
          simp only [hp]
          exact .quiet t r (by rw [hp]; rfl) (by simp [hp]) hstep

theorem Move.workers (h : Move s w s') : ∀ v ≠ w, s'.state.workers v = s.state.workers v := by
  intro v hv
  cases h with
  | writecb | openFails => rfl
  | quiet t r hp hopen h => exact (workerStep_names h).1 v hv
  | _ => exact setWorker_of_ne s.state _ hv

/-! ### The files -/

/-- The file of worker `w`; behind the first look at `returncode` it may have been removed. -/
def Client.current (s : Client ω) (w : ω) : Option (Open (List Byte) Byte) :=
  match (s.state.workers w).pc with
  | .unlock | .perform | .close =>
      some ⟨(s.state.workers w).localPath, s.file w, some (s.got w)⟩
  | .checkStatus =>
      some ⟨(s.state.workers w).localPath, s.file w,
        if (s.state.workers w).returncode < 0 then none else some (s.got w)⟩
  | _ => none

/-- The client as processes that write to files of their own. -/
def Client.files (s : Client ω) : OwnFiles.State ω (List Byte) Byte where
  fs := s.fs
  current := s.current
  opened := s.state.opened.map Prod.snd
  closed := s.done.map fun d => (d.name, d.kept)

omit [DecidableEq ω] in
theorem current_of_not_inUse (h : inUse (s.state.workers w).pc = false) : s.current w = none := by
  unfold Client.current
  cases hp : (s.state.workers w).pc with
  | unlock | perform | close | checkStatus => simp [hp, inUse] at h
  | _ => rfl

omit [DecidableEq ω] in
theorem current_congr (hw : s'.state.workers w = s.state.workers w)
    (hf : s'.file w = s.file w ∧ s'.got w = s.got w) : s'.current w = s.current w := by
  unfold Client.current
  rw [hw, hf.1, hf.2]

/-- Only the file of worker `w` changes. -/
theorem current_update {c : Option (Open (List Byte) Byte)} (h : Move s w s')
    (hf : ∀ v ≠ w, s'.file v = s.file v ∧ s'.got v = s.got v) (hc : s'.current w = c) :
    s'.current = Function.update s.current w c := by
  funext v
  by_cases hvw : v = w
  · rw [hvw, hc, Function.update_self]
  · rw [Function.update_of_ne hvw]
    exact current_congr (h.workers v hvw) (hf v hvw)

/-- A move that leaves all files alone. -/
theorem files_congr (h : Move s w s') (hf : ∀ v, s'.file v = s.file v ∧ s'.got v = s.got v)
    (hc : s'.current w = s.current w) (hfs : s'.fs = s.fs)
    (hopened : s'.state.opened = s.state.opened) (hdone : s'.done = s.done) :
    s'.files = s.files := by
  have hcurrent := current_update h (fun v _ => hf v) hc
  rw [Function.update_eq_self] at hcurrent
  unfold Client.files
  rw [hfs, hcurrent, hopened, hdone]

/-- **Every move is one of a process with a file of its own**: `fopen` makes a file under a new
name, and a file is removed only by its own worker. -/
theorem Move.files (hN : Named s.state) (h : Move s w s') :
    Reach OwnFiles.step Any s.files s'.files := by
  have hmove := h
  cases h with
  | openFails hp => exact .refl
  | quiet t r hp hopen h =>
      obtain ⟨hp', hopened, _, _⟩ := workerStep_quiet h hp hopen
      rw [files_congr hmove (fun _ => ⟨rfl, rfl⟩) ?_ rfl hopened rfl]
      · exact .refl
      · rw [current_of_not_inUse hp, current_of_not_inUse hp']
  | unlock hp =>
      rw [files_congr hmove (fun _ => ⟨rfl, rfl⟩) ?_ rfl rfl rfl]
      · exact .refl
      · simp [Client.current, hp, State.goto]
  | perform r hp =>
      rw [files_congr hmove (fun _ => ⟨rfl, rfl⟩) ?_ rfl rfl rfl]
      · exact .refl
      · simp [Client.current, hp]
  | writecb data hp =>
      have hw : s.files.current w =
          some ⟨(s.state.workers w).localPath, s.file w, some (s.got w)⟩ := by
        simp [Client.files, Client.current, hp]
      apply Reach.single (a := (w, .append data)) trivial
      rw [step_append hw data]
      unfold Client.files
      rw [current_update hmove (fun v hv => ⟨rfl, Function.update_of_ne hv _ _⟩) rfl]
      simp [Client.current, hp]
  | opens hp =>
      have hw : s.files.current w = none := by simp [Client.files, Client.current, hp]
      have hnew : (s.state.workers w).localPath ∉ s.files.opened := by
        intro hmem
        obtain ⟨x, hx, heq⟩ := List.mem_map.mp hmem
        exact (hN.next w hp).2 x hx (congrArg counterOf heq)
      apply Reach.single (a := (w, .create (s.state.workers w).localPath)) trivial
      rw [step_create hw hnew]
      unfold Client.files
      rw [current_update hmove
        (fun v hv => ⟨Function.update_of_ne hv _ _, Function.update_of_ne hv _ _⟩) rfl]
      simp [Client.current, State.goto]
  | close unlinked hp =>
      have hw : s.files.current w =
          some ⟨(s.state.workers w).localPath, s.file w, some (s.got w)⟩ := by
        simp [Client.files, Client.current, hp]
      by_cases hneg : (s.state.workers w).returncode < 0
      · apply Reach.single (a := (w, .unlink)) trivial
        rw [step_unlink hw]
        unfold Client.files
        rw [current_update hmove (fun _ _ => ⟨rfl, rfl⟩) rfl]
        simp [Client.current, State.goto, State.setWorker, hneg]
      · rw [files_congr hmove (fun _ => ⟨rfl, rfl⟩) ?_ (if_neg hneg) rfl rfl]
        · exact .refl
        · simp [Client.current, hp, State.goto, hneg]
  | checkStatus r unlinked hp =>
      have hw : s.files.current w = some ⟨(s.state.workers w).localPath, s.file w,
          if (s.state.workers w).returncode < 0 then none else some (s.got w)⟩ := by
        simp [Client.files, Client.current, hp]
      have hcurrent := current_update hmove (fun _ _ => ⟨rfl, rfl⟩)
        (current_of_not_inUse (by simp [State.goto, inUse]))
      by_cases hr : r = gfOk
      · apply Reach.single (a := (w, .close)) trivial
        rw [step_close hw]
        unfold Client.files
        rw [hcurrent]
        simp [State.goto, State.setWorker, hr, kept_of_ok]
      · apply (Reach.single (a := (w, .unlink)) trivial (step_unlink hw)).step (a := (w, .close)) trivial
        rw [step_close (Function.update_self _ _ _)]
        unfold Client.files
        rw [hcurrent]
        simp [State.goto, State.setWorker, hr, kept_of_ne]

/-! ### The requests -/

/-- The requests that are over are those made, each with a name made from its path. -/
structure Told (s : Client ω) : Prop where
  done : ∀ d ∈ s.done, NamedAfter d.path d.name
  busy : ∀ v, inUse (s.state.workers v).pc = true ∨ (s.state.workers v).pc = .openFile →
    NamedAfter (s.state.workers v).treqPath (s.state.workers v).localPath
  history : ∀ v, s.state.madeBy v =
    (s.done.filter fun d => d.worker = v).map (fun d => (d.worker, d.path)) ++
      if performed (s.state.workers v).pc then [(v, (s.state.workers v).treqPath)] else []

omit [DecidableEq ω] in
theorem performed_of_not_inUse {p : Pc} (h : inUse p = false) : performed p = false := by
  cases p <;> simp_all [inUse, performed]

theorem Told.move (hT : Told s) (h : Move s w s') : Told s' := by
  have hframe := h.workers
  cases h with
  | writecb data hp | openFails hp => exact ⟨hT.done, hT.busy, hT.history⟩
  | quiet t r hp hopen h =>
      obtain ⟨hp', _, hrequested, hname⟩ := workerStep_quiet h hp hopen
      refine ⟨hT.done, fun v hv => ?_, fun v => ?_⟩
      · by_cases hvw : v = w
        · subst hvw
          dsimp only at hv ⊢
          rw [hp'] at hv
          exact hname (hv.resolve_left Bool.false_ne_true)
        · rw [hframe v hvw] at hv ⊢
          exact hT.busy v hv
      · have hv := hT.history v
        unfold State.madeBy at hv ⊢
        dsimp only
        rw [hrequested, hv]
        by_cases hvw : v = w
        · rw [hvw, performed_of_not_inUse hp, performed_of_not_inUse hp']
          rfl
        · rw [hframe v hvw]
  | opens hp | unlock hp | close unlinked hp =>
      refine ⟨hT.done, fun v hv => ?_, fun v => ?_⟩
      · by_cases hvw : v = w
        · subst hvw
          have hbusy := hT.busy v (by simp [hp, inUse])
          simpa [State.goto] using hbusy
        · rw [hframe v hvw] at hv ⊢
          exact hT.busy v hv
      · have hv := hT.history v
        by_cases hvw : v = w
        · subst hvw
          rw [hp] at hv
          simpa [State.goto, State.setWorker, performed, State.madeBy] using hv
        · rw [hframe v hvw]
          exact hv
  | perform r hp =>
      refine ⟨hT.done, fun v hv => ?_, fun v => ?_⟩
      · by_cases hvw : v = w
        · subst hvw
          have hbusy := hT.busy v (by simp [hp, inUse])
          simpa using hbusy
        · rw [hframe v hvw] at hv ⊢
          exact hT.busy v hv
      · have hv := hT.history v
        by_cases hvw : v = w
        · subst hvw
          rw [hp] at hv
          simp only [State.madeBy, List.filter_append]
          rw [← State.madeBy, hv]
          simp [performed]
        · rw [hframe v hvw, ← hv]
          simp [State.madeBy, List.filter_append, Ne.symm hvw]
  | checkStatus r unlinked hp =>
      have hbusy := hT.busy w (by simp [hp, inUse])
      refine ⟨fun d hd => ?_, fun v hv => ?_, fun v => ?_⟩
      · obtain hd | hd := List.mem_append.mp hd
        · exact hT.done d hd
        · rw [List.mem_singleton.mp hd]
          exact hbusy
      · by_cases hvw : v = w
        · subst hvw
          simp [State.goto, inUse] at hv
        · rw [hframe v hvw] at hv ⊢
          exact hT.busy v hv
      · have hv := hT.history v
        by_cases hvw : v = w
        · subst hvw
          rw [hp] at hv
          simpa [State.goto, State.setWorker, performed, State.madeBy] using hv
        · rw [hframe v hvw]
          simpa [State.madeBy, State.goto, State.setWorker, Ne.symm hvw] using hv

end client

/-! ### Runs -/

section runs
variable [Fintype ω] {s : Client ω} {n : ℤ} {workload : ℕ → List Byte}
  {fs₀ : FileSystem (List Byte) Byte}

/-- The client of `MtDownload.lean` takes the same steps. -/
theorem Reachable.state (h : Reachable n workload fs₀ s) : MtDownload.Reachable n workload s.state := by
  refine h.map (f := Client.state) fun t a t' _ _ ht => ?_
  unfold Client.step at ht
  obtain ⟨_, ht⟩ := Option.ite_none_left_eq_some.mp ht
  split at ht
  · obtain ⟨_, ht⟩ := Option.ite_none_right_eq_some.mp ht
    obtain rfl := Option.some.inj ht
    exact .refl
  · obtain ⟨_, ht⟩ := Option.ite_none_right_eq_some.mp ht
    obtain rfl := Option.some.inj ht
    exact .refl
  · obtain ⟨u, hu, rfl⟩ := Option.map_eq_some_iff.mp ht
    exact Reach.single trivial hu

theorem Reachable.own (h : Reachable n workload fs₀ s) : Own fs₀ s.files := by
  apply own_of_reach
  refine h.map (f := Client.files) fun t a t' ht _ hs => ?_
  exact (step_move hs).files (LocalNames.Reachable.named (Reachable.state ht))

theorem Reachable.told (h : Reachable n workload fs₀ s) : Told s := by
  refine h.invariant (I := Told) ⟨List.forall_mem_nil _, fun v hv => ?_, fun _ => rfl⟩ ?_
  · simp [init, MtDownload.init, inUse] at hv
  · intro t a t' hT _ ht
    exact hT.move (step_move ht)

/-- **The files of the downloads**: in every run of any number of workers, the file of every request
that is over has the bytes that were written for it if the download succeeded, and is gone if not;
these files have different names, each made from the path of its request; and no other file has
changed but those in use.  When all workers have ended, the requests that are over are those
enqueued, and all other files are as they were. -/
theorem files_kept (nrequests : ℤ) (workload : ℕ → List Byte) (fs : FileSystem (List Byte) Byte)
    (s : Client ω) (h : Reachable nrequests workload fs s) :
    (∀ d ∈ s.done, s.fs.read d.name = d.kept ∧ NamedAfter d.path d.name) ∧
    (s.done.map Download.name).Nodup ∧
    (∀ n, n ∉ s.state.opened.map Prod.snd → s.fs.read n = fs.read n) ∧
    ((∀ w, (s.state.workers w).pc = .ended) →
      (s.done.map Download.path).Perm
        ((requestPaths nrequests (Fintype.card ω) workload).map some) ∧
      ∀ n, n ∉ s.done.map Download.name → s.fs.read n = fs.read n) := by
  have hO := Reachable.own h
  have hT := Reachable.told h
  have hnames : s.files.closed.map Prod.fst = s.done.map Download.name := List.map_map
  refine ⟨fun d hd => ⟨?_, hT.done d hd⟩, hnames ▸ hO.nodup, hO.rest, fun hend => ⟨?_, ?_⟩⟩
  · exact (hO.closed (d.name, d.kept) (List.mem_map.mpr ⟨d, hd, rfl⟩)).2
  · have hB := MtDownload.Reachable.balanced (Reachable.state h)
    have hperm : (s.done.map fun d => (d.worker, d.path)).Perm s.state.requested := by
      apply perm_of_filter
      intro w
      have hhistory := hT.history w
      have hover : performed .ended = false := rfl
      rw [hend w, hover, if_neg Bool.false_ne_true, List.append_nil] at hhistory
      rw [← State.madeBy, hhistory, List.filter_map]
      rfl
    have hpath : s.done.map Download.path =
        (s.done.map fun d => (d.worker, d.path)).map Prod.snd := by
      rw [List.map_map]
      rfl
    rw [hpath]
    exact (hperm.map Prod.snd).trans (hB.requested_of_ended hend)
  · intro n hn
    apply hO.closed_of_idle
    · intro w
      exact current_of_not_inUse (by rw [hend w]; rfl)
    · rwa [hnames]

end runs

/-- One worker and two requests for the same path: three bytes arrive, and then nothing. -/
def oneRun : List (Unit × Call) :=
  List.replicate 8 ((), .returns 0) ++ [((), .writecb [1, 2]), ((), .writecb [3])] ++
    List.replicate 12 ((), .returns 0) ++ List.replicate 5 ((), .returns (-1))

def oneStart : Client Unit := init Unit 2 (fun _ => str "/a") (.empty _ _)

def oneEnd : Client Unit := (exec Client.step oneStart oneRun).getD oneStart

theorem files_kept_one : oneEnd.fs.read (str "a-000000") = some [1, 2, 3] ∧
    oneEnd.fs.read (str "a-000001") = none ∧
    ∀ n, n ∉ [str "a-000000", str "a-000001"] → oneEnd.fs.read n = none := by
  have hend : ∀ w, (oneEnd.state.workers w).pc = .ended := by decide +kernel
  have hdone : oneEnd.done = [⟨(), some (str "/a"), str "a-000000", [1, 2, 3], 0, 0⟩,
      ⟨(), some (str "/a"), str "a-000001", [], -1, -1⟩] := by decide +kernel
  have h := files_kept 2 (fun _ => str "/a") (.empty _ _) oneEnd
    (reach_of_isSome oneRun (by decide +kernel))
  have hfiles := h.1
  have hrest := (h.2.2.2 hend).2
  rw [hdone] at hfiles hrest
  obtain ⟨⟨h₁, _⟩, h₂⟩ := List.forall_mem_cons.mp hfiles
  obtain ⟨⟨h₂, _⟩, _⟩ := List.forall_mem_cons.mp h₂
  exact ⟨h₁, h₂, hrest⟩

end OsProjects.LocalFiles
