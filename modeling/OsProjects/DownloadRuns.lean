import OsProjects.DownloadCount
import OsProjects.Termination

/-! # The download client ends

Whatever the interleaving and the results of the client library, every worker of
`proj1/multithreadgetfile/gfclient_download.c` makes the same number of steps, twelve for a request
and one for the last test, and as long as one has a step left some worker can step.

* `Worker.left` — the steps that a worker has left.
* `downloads_end` — no run is longer than these steps, every run can be continued, and the runs that
  cannot be continued are those in which all workers have ended. -/

namespace OsProjects.MtDownload

open Monitor Transition

variable {ω : Type*} [DecidableEq ω] {s s' : State ω} {w : ω} {r n : ℤ} {made : ℕ} {c : Worker}

/-! ### One worker -/

/-- The steps from here to the next test. -/
def Pc.ahead : Pc → ℕ
  | lock => 11
  | isempty => 10
  | pop => 9
  | nullTest => 8
  | localPath => 7
  | openFile => 6
  | unlock => 5
  | perform => 4
  | close => 3
  | checkStatus => 2
  | cleanup => 1
  | test | unlockEmpty | ended | endedLocked => 0

/-- The steps that a worker has left. -/
def Worker.left (n : ℤ) (c : Worker) : ℕ :=
  match c.pc with
  | .test => 12 * (n - c.i).toNat + 1
  | .ended | .unlockEmpty | .endedLocked => 0
  | p => 12 * (n - c.i - 1).toNat + p.ahead + 1

theorem toNat_succ {i : ℤ} (h : i < n) : (n - i).toNat = (n - i - 1).toNat + 1 := by
  omega

/-- **Every step is one step less**, for a worker that finds a path where it looks for one. -/
theorem workerStep_left (h : workerStep s w r = some s') (hOk : (s.workers w).Ok s.nrequests made)
    (hne : (s.workers w).pc = .isempty ∨ (s.workers w).pc = .pop → s.workq ≠ []) :
    (s.workers w).left s.nrequests = (s'.workers w).left s.nrequests + 1 := by
  unfold workerStep State.goto at h
  cases hc : s.workers w with
  | mk pc i treqPath localPath returncode =>
      rw [hc] at hOk hne
      simp only [hc] at h
      cases pc with
      | ended | endedLocked => cases h
      | unlockEmpty => exact hOk.elim
      | test =>
          obtain rfl := Option.some.inj h
          by_cases hlt : i < s.nrequests
          · simp only [if_pos hlt, setWorker_self, Worker.left, Pc.ahead, toNat_succ hlt]
            omega
          · have hnone : (s.nrequests - i).toNat = 0 := by omega
            simp only [if_neg hlt, setWorker_self, Worker.left, hnone]
      | lock =>
          obtain ⟨_, h⟩ := Option.ite_none_right_eq_some.mp h
          obtain rfl := Option.some.inj h
          simp only [setWorker_self, Worker.left, Pc.ahead]
      | isempty =>
          obtain rfl := Option.some.inj h
          have hcons : s.workq.isEmpty = false := by simpa using hne (.inl rfl)
          simp [hcons, Worker.left, Pc.ahead]
      | pop =>
          dsimp only at h
          split at h
          · next hq => exact absurd hq (hne (.inr rfl))
          · obtain rfl := Option.some.inj h
            simp only [setWorker_self, Worker.left, Pc.ahead]
      | nullTest =>
          obtain rfl := Option.some.inj h
          have hpn : treqPath ≠ none := hOk.2.2
          simp only [if_neg hpn, setWorker_self, Worker.left, Pc.ahead]
      | localPath =>
          obtain ⟨p, _, rfl⟩ := Option.map_eq_some_iff.mp h
          simp only [setWorker_self, Worker.left, Pc.ahead]
      | openFile | unlock | perform | close | checkStatus =>
          obtain rfl := Option.some.inj h
          simp only [setWorker_self, Worker.left, Pc.ahead]
      | cleanup =>
          obtain rfl := Option.some.inj h
          have hturn : s.nrequests - (i + 1) = s.nrequests - i - 1 := by omega
          simp only [setWorker_self, Worker.left, Pc.ahead, hturn]

theorem workerStep_isSome (hOk : (s.workers w).Ok n made) (hend : (s.workers w).pc ≠ .ended)
    (hlock : (s.workers w).pc = .lock → s.workqlock = none) : (workerStep s w r).isSome = true := by
  unfold workerStep
  unfold Worker.Ok at hOk
  dsimp only
  cases hp : (s.workers w).pc with
  | ended => exact absurd hp hend
  | unlockEmpty | endedLocked => simp [hp] at hOk
  | lock =>
      have hnone := hlock hp
      simp [hnone]
  | pop =>
      dsimp only
      split <;> rfl
  | localPath =>
      simp only [hp] at hOk
      obtain ⟨p, hpath⟩ := Option.ne_none_iff_exists'.mp hOk.2.2
      simp [hpath]
  | _ => rfl

/-! ### All workers -/

variable [Fintype ω] {workload : ℕ → List Byte}

/-- The steps that all workers have left. -/
def State.left (s : State ω) : ℕ := ∑ w, (s.workers w).left s.nrequests

theorem Balanced.step_left {paths : List (List Byte)} (hB : Balanced n paths s)
    (h : MtDownload.workerStep s w r = some s') :
    s'.exited = s.exited ∧ s.left = s'.left + 1 := by
  have hOk : (s.workers w).Ok s.nrequests (s.madeBy w).length := by
    rw [hB.nrequests]
    exact hB.workers w
  have hne : (s.workers w).pc = .isempty ∨ (s.workers w).pc = .pop → s.workq ≠ [] :=
    fun hp => hB.workq_ne_nil (hB.due_pos hp)
  obtain ⟨hexited, p, q, hF, _⟩ := workerStep_flow h hOk hne hB.notMem_none
  refine ⟨hexited, ?_⟩
  have hsum := sum_workers (Worker.left s.nrequests) hF.frame
  have hone := workerStep_left h hOk hne
  unfold State.left
  rw [hF.nrequests]
  omega

theorem Reachable.exited (h : Reachable n workload s) : s.exited = (init ω n workload).exited := by
  apply h.invariant_of (I := fun t => t.exited = (init ω n workload).exited)
    (fun t ht => Reachable.balanced ht) rfl
  intro s a s' hB hI _ hs
  unfold step at hs
  obtain ⟨_, hs⟩ := Option.ite_none_left_eq_some.mp hs
  rw [(hB.step_left hs).1, hI]

theorem spends_left (n : ℤ) (workload : ℕ → List Byte) :
    Spends step Any (init ω n workload) State.left := by
  intro s a s' hr _ hs
  unfold step at hs
  obtain ⟨_, hs⟩ := Option.ite_none_left_eq_some.mp hs
  exact (Balanced.step_left (Reachable.balanced hr) hs).2

omit [DecidableEq ω] in
theorem left_init (n : ℤ) (workload : ℕ → List Byte) :
    (init ω n workload).left = Fintype.card ω * (12 * n.toNat + 1) := by
  unfold State.left
  rw [Finset.sum_const_nat (m := 12 * n.toNat + 1) fun _ _ => ?_, Finset.card_univ]
  simp [init, Worker.left]

/-- **No deadlock**: where nobody can step, all workers have ended. -/
theorem Balanced.ended_of_stuck {paths : List (List Byte)} (hB : Balanced n paths s)
    (hexited : s.exited = false) (hstuck : Stuck step Any s) (w : ω) :
    (s.workers w).pc = .ended := by
  have hnone : ∀ v, MtDownload.workerStep s v 0 = none := by
    intro v
    have h := hstuck (v, 0) trivial
    rwa [step, hexited] at h
  have hcan : ∀ v, (s.workers v).pc ≠ .ended →
      ¬((s.workers v).pc = .lock → s.workqlock = none) := by
    intro v hv hlock
    have h := workerStep_isSome (r := 0) (hB.workers v) hv hlock
    rw [hnone v] at h
    cases h
  by_contra hend
  obtain ⟨hp, hheld⟩ := Classical.not_imp.mp (hcan w hend)
  -- it waits for the mutex, and the holder can step
  obtain ⟨v, hv⟩ := Option.ne_none_iff_exists'.mp hheld
  have hholds := (hB.lock v).mp hv
  have hpv : (s.workers v).pc ≠ .ended ∧ (s.workers v).pc ≠ .lock := by
    constructor <;> intro hpc <;> simp [hpc, Pc.holds] at hholds
  exact hcan v hpv.1 fun hpc => absurd hpc hpv.2

/-- When all workers have ended, the paths enqueued have been requested. -/
theorem Balanced.requested_of_ended {paths : List (List Byte)} (hB : Balanced n paths s)
    (hend : ∀ w, (s.workers w).pc = .ended) :
    (s.requested.map Prod.snd).Perm (paths.map some) := by
  have hempty : s.workq = [] := by
    apply List.length_eq_zero_iff.mp
    rw [hB.balance]
    exact Finset.sum_eq_zero fun w _ => by simp [Worker.due, hend w]
  have hpopped := hB.conserved
  rw [hempty, List.append_nil] at hpopped
  have hperm : s.popped.Perm s.requested := by
    apply perm_of_filter
    intro w
    have hhistory := hB.history w
    rwa [Worker.pending, hend w, List.map_nil, List.append_nil] at hhistory
  rw [← hpopped]
  exact (hperm.map Prod.snd).symm

omit [Fintype ω] in
theorem stuck_of_ended (hend : ∀ w, (s.workers w).pc = .ended) : Stuck step Any s := by
  intro a _
  simp [step, workerStep, hend a.1]

/-- **The download client ends**: for any number of workers, any results of the client library and
any interleaving, no run is longer than twelve steps for each request and one for each worker; a
run that cannot be continued is one in which all workers have ended, which are those of this
length; and every run can be continued to one. -/
theorem downloads_end (nrequests : ℤ) (workload : ℕ → List Byte)
    (hpaths : ∀ p ∈ requestPaths nrequests (Fintype.card ω) workload, p.length ≤ 256)
    (as : List (ω × ℤ)) (s : State ω) (h : exec step (init ω nrequests workload) as = some s) :
    as.length ≤ Fintype.card ω * (12 * nrequests.toNat + 1) ∧
    ((∀ a, step s a = none) ↔ ∀ w, (s.workers w).pc = .ended) ∧
    ((∀ w, (s.workers w).pc = .ended) ↔
      as.length = Fintype.card ω * (12 * nrequests.toNat + 1)) ∧
    ∃ bs t, exec step s bs = some t ∧ ∀ w, (t.workers w).pc = .ended := by
  have hr : Reachable nrequests workload s := reach_of_exec as h
  have hexited : ∀ t : State ω, Reachable nrequests workload t → t.exited = false := by
    intro t ht
    rw [Reachable.exited ht]
    simpa [init, Nat.not_lt] using hpaths
  have hstuck : ∀ t, Reachable nrequests workload t → Stuck step Any t →
      ∀ w, (t.workers w).pc = .ended :=
    fun t ht hs => Balanced.ended_of_stuck (Reachable.balanced ht) (hexited t ht) hs
  have hlength := (spends_left nrequests workload).length_eq .refl as h (along_any _ _)
  rw [left_init] at hlength
  have hzero : (∀ w, (s.workers w).pc = .ended) ↔ s.left = 0 := by
    unfold State.left
    rw [Finset.sum_eq_zero_iff]
    constructor
    · intro hend w _
      simp [Worker.left, hend w]
    · intro hleft w
      have hOk := (Reachable.balanced hr).workers w
      have hw := hleft w (Finset.mem_univ w)
      unfold Worker.Ok at hOk
      unfold Worker.left at hw
      split at hw
      · omega
      · next hp => exact hp
      · next hp => simp [hp] at hOk
      · next hp => simp [hp] at hOk
      · omega
  refine ⟨by omega, ⟨fun hs => hstuck s hr fun a _ => hs a, fun hend a => ?_⟩, ?_, ?_⟩
  · exact stuck_of_ended hend a trivial
  · rw [hzero]
    omega
  · obtain ⟨bs, t, hbs, _, ht⟩ := (spends_left nrequests workload).lowers.exists_stuck hr
    exact ⟨bs, t, hbs, hstuck t (hr.trans (reach_of_exec bs hbs)) ht⟩

theorem downloads_end_two : twoRun.length = 2 * (12 * 1 + 1) := by
  have h : exec step (init Bool 1 fun _ => str "/a") twoRun = some twoEnd := rfl
  have hended : ∀ w, (twoEnd.workers w).pc = .ended := by decide +kernel
  have hpaths : ∀ p ∈ requestPaths 1 (Fintype.card Bool) (fun _ => str "/a"), p.length ≤ 256 := by
    intro p hp
    obtain ⟨_, _, rfl⟩ := List.mem_map.mp hp
    decide
  exact (downloads_end 1 (fun _ => str "/a") hpaths twoRun twoEnd h).2.2.1.mp hended

end OsProjects.MtDownload
