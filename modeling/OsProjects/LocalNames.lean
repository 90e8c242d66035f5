import OsProjects.CString
import OsProjects.DownloadCount

/-! # The local files of the download client

`localPath` of `proj1/multithreadgetfile/gfclient_download.c` names the file of a request after its
path, which is not empty, and a counter, a `static` variable that only the mutex around the call
guards; with fewer than 2³¹ requests it is a natural number.

* **Steps.** `counter++` is a load and a store here, in steps of their own; the name is the
  worker's own and is written along with the store.
* `counterOf_localPath` — the counter can be read off the end of the name, whatever the path is.
* `Client.refines` — under the mutex the two steps do what the one step of `MtDownload.lean` does.
* `localPaths_nodup` — no name is produced twice, and no file opened twice. -/

namespace OsProjects.LocalNames

open MtDownload Transition

/-! ### Names -/

/-- The number at the end of a name. -/
def counterOf (name : List Byte) : ℕ := digitsValue (name.reverse.takeWhile isDigit).reverse

theorem isDigit_of_mem_padded {n : ℕ} {b : Byte} (hb : b ∈ padded n) : isDigit b = true := by
  obtain hb | hb := List.mem_append.mp hb
  · rw [List.eq_of_mem_replicate hb]
    rfl
  · exact isDigit_of_mem_decimal hb

theorem digitsValue_zeros (k : ℕ) (ds : List Byte) :
    digitsValue (List.replicate k 48 ++ ds) = digitsValue ds := by
  induction k with
  | zero => rfl
  | succ k ih =>
      rw [← ih, List.replicate_succ, List.cons_append]
      rfl

theorem digitsValue_padded (n : ℕ) : digitsValue (padded n) = n := by
  unfold padded
  rw [digitsValue_zeros, digitsValue_decimal]

/-- **The counter of a name**: the digits behind the last dash. -/
theorem counterOf_localPath (reqPath : List Byte) (counter : ℕ) :
    counterOf (localPath reqPath counter) = counter := by
  have hreverse : (localPath reqPath counter).reverse =
      (padded counter).reverse ++ 45 :: (reqPath.drop 1).reverse := by
    have hdash : str "-" = [45] := by decide
    unfold localPath
    rw [hdash, List.reverse_append, List.reverse_append]
    rfl
  have hdigits : ∀ b ∈ (padded counter).reverse, isDigit b = true :=
    fun b hb => isDigit_of_mem_padded (List.mem_reverse.mp hb)
  unfold counterOf
  rw [hreverse, List.takeWhile_append_of_pos hdigits, List.takeWhile_cons_of_neg (by decide),
    List.append_nil, List.reverse_reverse, digitsValue_padded]

/-- Names with different counters are different, and so are lists of them. -/
theorem nodup_of_counters {names : List (List Byte)} (h : (names.map counterOf).Nodup) :
    names.Nodup :=
  h.of_map counterOf

/-! ### Files -/

section files
variable {ω : Type*} [DecidableEq ω] {s s' : State ω} {w : ω} {r : ℤ}

/-- What a step of a worker does to the counter and the files. -/
inductive NameMove (s s' : State ω) (w : ω) : Prop
  | quiet (hp : (s.workers w).pc ≠ .localPath) (hcounter : s'.counter = s.counter)
      (hopened : s'.opened = s.opened) (hafter : (s'.workers w).pc ≠ .openFile)
  | name (p : List Byte) (hp : (s.workers w).pc = .localPath)
      (hname : (s'.workers w).localPath = localPath p s.counter)
      (hcounter : s'.counter = s.counter + 1) (hopened : s'.opened = s.opened)
  | opens (hp : (s.workers w).pc = .openFile) (hcounter : s'.counter = s.counter)
      (hopened : s'.opened = s.opened ++ [(w, (s.workers w).localPath)])
      (hafter : (s'.workers w).pc ≠ .openFile)

theorem workerStep_names (h : workerStep s w r = some s') :
    (∀ v ≠ w, s'.workers v = s.workers v) ∧ NameMove s s' w := by
  have hframe : ∀ c, ∀ v ≠ w, (s.setWorker w c).workers v = s.workers v :=
    fun c v hv => setWorker_of_ne s c hv
  unfold workerStep State.goto at h
  cases hc : (s.workers w).pc with
  | ended | endedLocked => simp [hc] at h
  | test | isempty | nullTest =>
      simp only [hc, Option.some.injEq] at h
      obtain rfl := h
      refine ⟨hframe _, .quiet (by simp [hc]) rfl rfl ?_⟩
      rw [setWorker_self]
      dsimp only
      split <;> simp
  | lock =>
      simp only [hc] at h
      obtain ⟨_, h⟩ := Option.ite_none_right_eq_some.mp h
      obtain rfl := Option.some.inj h
      refine ⟨hframe _, .quiet (by simp [hc]) rfl rfl ?_⟩
      simp
  | unlockEmpty | unlock | perform | close | checkStatus | cleanup =>
      simp only [hc, Option.some.injEq] at h
      obtain rfl := h
      refine ⟨hframe _, .quiet (by simp [hc]) rfl rfl ?_⟩
      simp
  | pop =>
      simp only [hc] at h
      split at h
      · obtain rfl := Option.some.inj h
        exact ⟨fun _ _ => rfl, .quiet (by simp [hc]) rfl rfl (by simp [hc])⟩
      · obtain rfl := Option.some.inj h
        exact ⟨hframe _, .quiet (by simp [hc]) rfl rfl (by simp)⟩
  | localPath =>
      simp only [hc] at h
      obtain ⟨p, _, rfl⟩ := Option.map_eq_some_iff.mp h
      refine ⟨hframe _, .name p hc ?_ rfl rfl⟩
      simp
  | openFile =>
      simp only [hc, Option.some.injEq] at h
      obtain rfl := h
      refine ⟨hframe _, .opens hc rfl rfl ?_⟩
      simp

/-- The files opened and the one that a worker is about to open have counters of their own. -/
structure Named (s : State ω) : Prop where
  below : ∀ file ∈ s.opened, counterOf file.2 < s.counter
  nodup : (s.opened.map fun file => counterOf file.2).Nodup
  next : ∀ w, (s.workers w).pc = .openFile → counterOf (s.workers w).localPath < s.counter ∧
    ∀ file ∈ s.opened, counterOf file.2 ≠ counterOf (s.workers w).localPath
  apart : ∀ v w, (s.workers v).pc = .openFile → (s.workers w).pc = .openFile → v ≠ w →
    counterOf (s.workers v).localPath ≠ counterOf (s.workers w).localPath

theorem Named.workerStep (hN : Named s) (h : workerStep s w r = some s') : Named s' := by
  obtain ⟨hbelow, hnodup, hnext, hapart⟩ := hN
  obtain ⟨hframe, hmove⟩ := workerStep_names h
  cases hmove with
  | quiet _ hcounter hopened hafter =>
      have hother : ∀ v, (s'.workers v).pc = .openFile → s'.workers v = s.workers v := by
        intro v hv
        apply hframe v
        intro heq
        rw [heq] at hv
        exact hafter hv
      refine ⟨?_, ?_, fun v hv => ?_, fun u v hu hv huv => ?_⟩
      · rw [hcounter, hopened]
        exact hbelow
      · rw [hopened]
        exact hnodup
      · have heq := hother v hv
        rw [heq] at hv ⊢
        rw [hcounter, hopened]
        exact hnext v hv
      · have hequ := hother u hu
        have heqv := hother v hv
        rw [hequ] at hu ⊢
        rw [heqv] at hv ⊢
        exact hapart u v hu hv huv
  | name p hp hname hcounter hopened =>
      have hnew : counterOf (s'.workers w).localPath = s.counter := by
        rw [hname, counterOf_localPath]
      refine ⟨fun file hfile => ?_, ?_, fun v hv => ?_, fun u v hu hv huv => ?_⟩
      · rw [hopened] at hfile
        rw [hcounter]
        exact Nat.lt_succ_of_lt (hbelow file hfile)
      · rw [hopened]
        exact hnodup
      · rw [hcounter, hopened]
        by_cases heq : v = w
        · rw [heq, hnew]
          exact ⟨Nat.lt_succ_self _, fun file hfile => (hbelow file hfile).ne⟩
        · rw [hframe v heq] at hv ⊢
          exact ⟨Nat.lt_succ_of_lt (hnext v hv).1, (hnext v hv).2⟩
      · by_cases hequ : u = w
        · have heqv : v ≠ w := fun h => huv (hequ.trans h.symm)
          rw [hframe v heqv] at hv ⊢
          rw [hequ, hnew]
          exact (hnext v hv).1.ne'
        · rw [hframe u hequ] at hu ⊢
          by_cases heqv : v = w
          · rw [heqv, hnew]
            exact (hnext u hu).1.ne
          · rw [hframe v heqv] at hv ⊢
            exact hapart u v hu hv huv
  | opens hp hcounter hopened hafter =>
      obtain ⟨hlt, hfresh⟩ := hnext w hp
      have hother : ∀ v, (s'.workers v).pc = .openFile → v ≠ w := by
        intro v hv heq
        rw [heq] at hv
        exact hafter hv
      refine ⟨fun file hfile => ?_, ?_, fun v hv => ?_, fun u v hu hv huv => ?_⟩
      · rw [hopened] at hfile
        rw [hcounter]
        obtain hfile | hfile := List.mem_append.mp hfile
        · exact hbelow file hfile
        · rw [List.mem_singleton.mp hfile]
          exact hlt
      · rw [hopened, List.map_append, List.map_singleton, List.nodup_append]
        refine ⟨hnodup, List.nodup_singleton _, fun a ha b hb => ?_⟩
        obtain ⟨file, hfile, rfl⟩ := List.mem_map.mp ha
        rw [List.mem_singleton.mp hb]
        exact hfresh file hfile
      · have hv' := hother v hv
        rw [hframe v hv'] at hv ⊢
        rw [hcounter, hopened]
        refine ⟨(hnext v hv).1, fun file hfile => ?_⟩
        obtain hfile | hfile := List.mem_append.mp hfile
        · exact (hnext v hv).2 file hfile
        · rw [List.mem_singleton.mp hfile]
          exact hapart w v hp hv hv'.symm
      · have hu' := hother u hu
        have hv' := hother v hv
        rw [hframe u hu'] at hu ⊢
        rw [hframe v hv'] at hv ⊢
        exact hapart u v hu hv huv

/-- **No file is opened twice.** -/
theorem Reachable.named [Fintype ω] {n : ℤ} {workload : ℕ → List Byte}
    (h : Reachable n workload s) : Named s := by
  refine h.invariant ?_ fun s a s' hN _ hs => ?_
  · exact ⟨List.forall_mem_nil _, List.nodup_nil, fun _ hp => (nomatch hp),
      fun _ _ hp => (nomatch hp)⟩
  · unfold step at hs
    split at hs
    · cases hs
    · exact hN.workerStep hs

end files

/-! ### Loading and storing the counter -/

section client
variable {ω : Type*} [DecidableEq ω]

/-- The client, with the value that a call of `localPath` has loaded and the names produced. -/
structure Client (ω : Type*) where
  state : State ω
  loaded : ω → Option ℕ
  produced : List (List Byte)

def Client.init (ω : Type*) [Fintype ω] (nrequests : ℤ) (workload : ℕ → List Byte) : Client ω :=
  ⟨MtDownload.init ω nrequests workload, fun _ => none, []⟩

/-- One step: `localPath` loads the counter, and then writes the name and stores the counter. -/
def Client.step (s : Client ω) (a : ω × ℤ) : Option (Client ω) :=
  if s.state.exited then none
  else if (s.state.workers a.1).pc = .localPath then
    match s.loaded a.1 with
    | none => some { s with loaded := Function.update s.loaded a.1 (some s.state.counter) }
    | some counter =>
        (workerStep { s.state with counter := counter } a.1 a.2).map fun t =>
          ⟨t, Function.update s.loaded a.1 none, s.produced ++ [(t.workers a.1).localPath]⟩
  else (workerStep s.state a.1 a.2).map fun t => { s with state := t }

abbrev Client.Reachable [Fintype ω] (nrequests : ℤ) (workload : ℕ → List Byte) (s : Client ω) :
    Prop :=
  Reach Client.step Any (Client.init ω nrequests workload) s

section step
variable {s s' : Client ω} {w : ω} {r : ℤ}

/-- The moves of worker `w`. -/
inductive ClientMove (s s' : Client ω) (w : ω) (r : ℤ) : Prop
  | load (hp : (s.state.workers w).pc = .localPath) (hstate : s'.state = s.state)
      (hloaded : s'.loaded = Function.update s.loaded w (some s.state.counter))
      (hproduced : s'.produced = s.produced)
  | store (counter : ℕ) (hp : (s.state.workers w).pc = .localPath)
      (hsome : s.loaded w = some counter)
      (hstep : workerStep { s.state with counter := counter } w r = some s'.state)
      (hloaded : s'.loaded = Function.update s.loaded w none)
      (hproduced : s'.produced = s.produced ++ [(s'.state.workers w).localPath])
  | other (hp : (s.state.workers w).pc ≠ .localPath)
      (hstep : workerStep s.state w r = some s'.state) (hloaded : s'.loaded = s.loaded)
      (hproduced : s'.produced = s.produced)

theorem Client.step_move (h : s.step (w, r) = some s') :
    s.state.exited = false ∧ ClientMove s s' w r := by
  unfold Client.step at h
  obtain ⟨hexited, h⟩ := Option.ite_none_left_eq_some.mp h
  refine ⟨Bool.eq_false_iff.mpr hexited, ?_⟩
  by_cases hp : (s.state.workers w).pc = .localPath
  · simp only [if_pos hp] at h
    cases hw : s.loaded w with
    | none =>
        simp only [hw, Option.some.injEq] at h
        obtain rfl := h
        exact .load hp rfl rfl rfl
    | some counter =>
        simp only [hw] at h
        obtain ⟨t, ht, rfl⟩ := Option.map_eq_some_iff.mp h
        exact .store counter hp hw ht rfl rfl
  · simp only [if_neg hp] at h
    obtain ⟨t, ht, rfl⟩ := Option.map_eq_some_iff.mp h
    exact .other hp ht rfl rfl

end step

section refines
variable [Fintype ω] {s s' : Client ω} {v w : ω} {r n : ℤ} {workload : ℕ → List Byte}

/-- What has been loaded is still the counter, and the names have the counters up to it. -/
structure Client.Refines (n : ℤ) (workload : ℕ → List Byte) (s : Client ω) : Prop where
  reachable : MtDownload.Reachable n workload s.state
  loaded : ∀ w counter, s.loaded w = some counter →
    (s.state.workers w).pc = .localPath ∧ counter = s.state.counter
  counters : s.produced.map counterOf = List.range s.state.counter

theorem localPath_unique {t : State ω} (h : MtDownload.Reachable n workload t)
    (hv : (t.workers v).pc = .localPath) (hw : (t.workers w).pc = .localPath) : v = w := by
  have hlock := h.balanced.lock
  exact hlock.unique (by rw [hv]; rfl) (by rw [hw]; rfl)

theorem Client.Refines.step (hR : s.Refines n workload) (h : s.step (w, r) = some s') :
    s'.Refines n workload := by
  obtain ⟨hreach, hbefore, hcounters⟩ := hR
  obtain ⟨hexited, hmove⟩ := Client.step_move h
  have hnext : workerStep s.state w r = some s'.state →
      MtDownload.Reachable n workload s'.state := by
    intro hstep
    apply hreach.step (a := (w, r)) trivial
    rw [MtDownload.step, hexited]
    exact hstep
  cases hmove with
  | load hp hstate hloaded hproduced =>
      refine ⟨by rw [hstate]; exact hreach, fun v counter hv => ?_, ?_⟩
      · rw [hstate]
        rw [hloaded] at hv
        by_cases hvw : v = w
        · rw [hvw, Function.update_self] at hv
          rw [hvw]
          exact ⟨hp, (Option.some.inj hv).symm⟩
        · rw [Function.update_of_ne hvw] at hv
          exact hbefore v counter hv
      · rw [hstate, hproduced]
        exact hcounters
  | store counter hp hsome hstep hloaded hproduced =>
      -- nobody has written the counter since it was loaded
      obtain ⟨-, rfl⟩ := hbefore w counter hsome
      have hstep : workerStep s.state w r = some s'.state := hstep
      obtain ⟨hframe, hname⟩ := workerStep_names hstep
      refine ⟨hnext hstep, fun v counter hv => ?_, ?_⟩
      · rw [hloaded] at hv
        by_cases hvw : v = w
        · rw [hvw, Function.update_self] at hv
          cases hv
        · rw [Function.update_of_ne hvw] at hv
          exact absurd (localPath_unique hreach (hbefore v counter hv).1 hp) hvw
      · cases hname with
        | quiet hne => exact absurd hp hne
        | opens hne =>
            rw [hp] at hne
            cases hne
        | name p _ hname hcounter _ =>
            rw [hproduced, List.map_append, List.map_singleton, hname, counterOf_localPath,
              hcounter, List.range_succ, hcounters]
  | other hp hstep hloaded hproduced =>
      obtain ⟨hframe, hname⟩ := workerStep_names hstep
      have hcounter : s'.state.counter = s.state.counter := by
        cases hname with
        | quiet _ hcounter | opens _ hcounter => exact hcounter
        | name _ hpc => exact absurd hpc hp
      refine ⟨hnext hstep, fun v counter hv => ?_, ?_⟩
      · rw [hloaded] at hv
        obtain ⟨hpc, heq⟩ := hbefore v counter hv
        have hvw : v ≠ w := fun h => hp (h ▸ hpc)
        rw [hframe v hvw, hcounter]
        exact ⟨hpc, heq⟩
      · rw [hproduced, hcounter]
        exact hcounters

/-- **Under the mutex, loading and storing in two steps is one step.** -/
theorem Client.Reachable.refines (h : Client.Reachable n workload s) : s.Refines n workload :=
  h.invariant ⟨.refl, fun _ _ hnone => (nomatch hnone), rfl⟩ fun _ a _ hR _ hs =>
    hR.step (w := a.1) (r := a.2) hs

end refines

end client

/-- **Downloads do not overwrite each other**: no name is produced twice, and no file opened
twice. -/
theorem localPaths_nodup {ω : Type*} [DecidableEq ω] [Fintype ω] (nrequests : ℤ)
    (workload : ℕ → List Byte) (s : Client ω) (h : Client.Reachable nrequests workload s) :
    s.produced.Nodup ∧ (s.state.opened.map Prod.snd).Nodup := by
  have hR := h.refines
  constructor
  · apply nodup_of_counters
    rw [hR.counters]
    exact List.nodup_range
  · apply nodup_of_counters
    rw [List.map_map]
    exact (Reachable.named hR.reachable).nodup

/-- Two workers and one request each, both for the same path. -/
def twoStart : Client Bool := Client.init Bool 1 fun _ => str "/a"

def twoRun : List (Bool × ℤ) := List.replicate 9 (true, 0) ++ List.replicate 9 (false, 0)

def twoEnd : Client Bool := (exec Client.step twoStart twoRun).getD twoStart

theorem localPaths_nodup_two :
    twoEnd.state.opened = [(true, str "a-000000"), (false, str "a-000001")] ∧
      twoEnd.produced.Nodup ∧ (twoEnd.state.opened.map Prod.snd).Nodup := by
  have hopened : twoEnd.state.opened = [(true, str "a-000000"), (false, str "a-000001")] := by
    decide +kernel
  exact ⟨hopened, localPaths_nodup 1 (fun _ => str "/a") twoEnd (reach_of_exec twoRun rfl)⟩

end OsProjects.LocalNames
