import OsProjects.Guarded
import OsProjects.MtDownload
import Mathlib.Algebra.BigOperators.Group.Finset.Basic
import Mathlib.Algebra.Order.BigOperators.Group.Finset

/-! # Every request once

The requests of the multithreaded download client balance: the queue is as long as the workers
have pops left to do (`Balanced`), so no worker finds it empty and each makes its `nrequests`
requests.  `downloads_once` says so for every number of workers, every `nrequests` and every
interleaving. -/

namespace OsProjects.MtDownload

open Monitor Transition

variable {ω : Type*} [DecidableEq ω] {s s' : State ω} {w : ω} {r n : ℤ} {made : ℕ} {c : Worker}

/-! ### One worker -/

/-- The worker holds `workqlock` at this point. -/
def Pc.holds : Pc → Bool
  | isempty | unlockEmpty | pop | nullTest | localPath | openFile | unlock | endedLocked => true
  | _ => false

/-- The pops that a worker still has to do. -/
def Worker.due (n : ℤ) (c : Worker) : ℕ :=
  match c.pc with
  | .test | .lock | .isempty | .pop => (n - c.i).toNat
  | .ended | .unlockEmpty | .endedLocked => 0
  | _ => (n - c.i - 1).toNat

/-- The path that a worker has popped and not yet requested. -/
def Worker.pending (c : Worker) : List Ptr :=
  match c.pc with
  | .nullTest | .localPath | .openFile | .unlock | .perform => [c.treqPath]
  | _ => []

/-- What holds of a worker that has made `made` requests; it is at neither of the two points that
need an empty queue or a `NULL` in it. -/
def Worker.Ok (n : ℤ) (made : ℕ) (c : Worker) : Prop :=
  match c.pc with
  | .test => c.i = made ∧ c.i ≤ max n 0
  | .lock | .isempty | .pop | .openFile | .unlock | .perform => c.i = made ∧ c.i < n
  | .nullTest | .localPath => c.i = made ∧ c.i < n ∧ c.treqPath ≠ none
  | .close | .checkStatus | .cleanup => c.i + 1 = made ∧ c.i < n
  | .ended => c.i = made ∧ c.i = max n 0
  | .unlockEmpty | .endedLocked => False

/-- The mutex is left alone, taken, or given up. -/
def LockMove (s s' : State ω) (w : ω) : Prop :=
  (s'.workqlock = s.workqlock ∧ (s'.workers w).pc.holds = (s.workers w).pc.holds) ∨
  (s.workqlock = none ∧ s'.workqlock = some w ∧ (s'.workers w).pc.holds = true) ∨
  ((s.workers w).pc.holds = true ∧ s'.workqlock = none ∧ (s'.workers w).pc.holds = false)

/-- What a step of a worker does: it pops the paths `p` and requests the paths `q`. -/
structure Flow (s s' : State ω) (w : ω) (p q : List Ptr) : Prop where
  frame : ∀ v ≠ w, s'.workers v = s.workers v
  nrequests : s'.nrequests = s.nrequests
  workq : s.workq = p ++ s'.workq
  popped : s'.popped = s.popped ++ p.map (w, ·)
  requested : s'.requested = s.requested ++ q.map (w, ·)
  pending : (s.workers w).pending ++ p = q ++ (s'.workers w).pending
  due : p.length + (s'.workers w).due s.nrequests = (s.workers w).due s.nrequests
  lock : LockMove s s' w

@[simp] theorem setWorker_self (s : State ω) (w : ω) (c : Worker) :
    (s.setWorker w c).workers w = c := by
  simp [State.setWorker]

theorem setWorker_of_ne (s : State ω) (c : Worker) {v w : ω} (h : v ≠ w) :
    (s.setWorker w c).workers v = s.workers v := by
  simp [State.setWorker, h]

omit [DecidableEq ω] in
/-- A worker goes from `c` to `c'`, and pops and requests nothing. -/
theorem Flow.quiet {c c' : Worker} (hc : s.workers w = c) (hc' : s'.workers w = c')
    (hframe : ∀ v ≠ w, s'.workers v = s.workers v)
    (hsame : (s'.nrequests, s'.workq, s'.popped, s'.requested) =
      (s.nrequests, s.workq, s.popped, s.requested))
    (hpend : c'.pending = c.pending) (hdue : c'.due s.nrequests = c.due s.nrequests)
    (hlock : LockMove s s' w) (hOk : c'.Ok s.nrequests made) :
    ∃ p q, Flow s s' w p q ∧ (s'.workers w).Ok s.nrequests (made + q.length) := by
  simp only [Prod.mk.injEq] at hsame
  obtain ⟨hn, hq, hpop, hreq⟩ := hsame
  subst hc hc'
  exact ⟨[], [], ⟨hframe, hn, hq.symm, by simp [hpop], by simp [hreq], by simp [hpend],
    by simpa using hdue, hlock⟩, hOk⟩

/-- The same for a step that leaves the mutex alone. -/
theorem Flow.setWorker {c c' : Worker} (hc : s.workers w = c)
    (hs : s'.workers = Function.update s.workers w c')
    (hsame : (s'.nrequests, s'.workq, s'.popped, s'.requested) =
      (s.nrequests, s.workq, s.popped, s.requested))
    (hpend : c'.pending = c.pending) (hdue : c'.due s.nrequests = c.due s.nrequests)
    (hlock : s'.workqlock = s.workqlock) (hholds : c'.pc.holds = c.pc.holds)
    (hOk : c'.Ok s.nrequests made) :
    ∃ p q, Flow s s' w p q ∧ (s'.workers w).Ok s.nrequests (made + q.length) := by
  have hc' : s'.workers w = c' := by rw [hs, Function.update_self]
  refine Flow.quiet hc hc' (fun v hv => by rw [hs, Function.update_of_ne hv]) hsame hpend hdue
    (.inl ⟨hlock, ?_⟩) hOk
  rw [hc, hc', hholds]

theorem workerStep_flow (h : workerStep s w r = some s') (hOk : (s.workers w).Ok s.nrequests made)
    (hne : (s.workers w).pc = .isempty ∨ (s.workers w).pc = .pop → s.workq ≠ [])
    (hsome : none ∉ s.workq) :
    s'.exited = s.exited ∧ ∃ p q, Flow s s' w p q ∧ (s'.workers w).Ok s.nrequests (made + q.length) := by
  have hframe : ∀ c, ∀ v ≠ w, (s.setWorker w c).workers v = s.workers v :=
    fun c v hv => setWorker_of_ne s c hv
  unfold workerStep State.goto at h
  cases hc : s.workers w with
  | mk pc i treqPath localPath returncode =>
      rw [hc] at hOk hne
      simp only [hc] at h
      cases pc with
      | ended | endedLocked => cases h
      | unlockEmpty => exact hOk.elim
      | test =>
          obtain rfl := Option.some.inj h
          obtain ⟨hmade, hle⟩ := hOk
          by_cases hlt : i < s.nrequests
          · simp only [if_pos hlt]
            exact ⟨rfl, Flow.setWorker hc rfl rfl rfl rfl rfl rfl ⟨hmade, hlt⟩⟩
          · simp only [if_neg hlt]
            have hdue : (s.nrequests - i).toNat = 0 := by omega
            have hend : i = max s.nrequests 0 := by
              have hle : i ≤ max s.nrequests 0 := hle
              have hmade : i = made := hmade
              omega
            exact ⟨rfl, Flow.setWorker hc rfl rfl rfl hdue.symm rfl rfl
              ⟨hmade, hend⟩⟩
      | lock =>
          obtain ⟨hn, h⟩ := Option.ite_none_right_eq_some.mp h
          obtain rfl := Option.some.inj h
          have hn := Option.isNone_iff_eq_none.mp hn
          refine ⟨rfl, Flow.quiet hc (setWorker_self s w _) (hframe _) rfl rfl rfl
            (.inr (.inl ⟨hn, rfl, ?_⟩)) hOk⟩
          simp [Pc.holds]
      | isempty =>
          obtain rfl := Option.some.inj h
          have hcons : s.workq.isEmpty = false := by simpa using hne (.inl rfl)
          simp only [hcons]
          exact ⟨rfl, Flow.setWorker hc rfl rfl rfl rfl rfl rfl hOk⟩
      | pop =>
          dsimp only at h
          split at h
          · next hq => exact absurd hq (hne (.inr rfl))
          · next p q hq =>
              obtain rfl := Option.some.inj h
              have hpn : p ≠ none := by
                rintro rfl
                exact hsome (by rw [hq]; exact List.mem_cons_self)
              have hdue : 1 + (s.nrequests - i - 1).toNat = (s.nrequests - i).toNat := by
                have hlt : i < s.nrequests := hOk.2
                omega
              refine ⟨rfl, [p], [], ⟨hframe _, rfl, hq, rfl, (List.append_nil _).symm, ?_, ?_,
                .inl ⟨rfl, ?_⟩⟩, ?_⟩
              all_goals simp only [setWorker_self, hc]
              · rfl
              · exact hdue
              · rfl
              · exact ⟨hOk.1, hOk.2, hpn⟩
      | nullTest =>
          obtain rfl := Option.some.inj h
          have hpn : treqPath ≠ none := hOk.2.2
          simp only [if_neg hpn]
          exact ⟨rfl, Flow.setWorker hc rfl rfl rfl rfl rfl rfl hOk⟩
      | localPath =>
          obtain ⟨p, _, rfl⟩ := Option.map_eq_some_iff.mp h
          exact ⟨rfl, Flow.setWorker hc rfl rfl rfl rfl rfl rfl ⟨hOk.1, hOk.2.1⟩⟩
      | unlock =>
          obtain rfl := Option.some.inj h
          refine ⟨rfl, Flow.quiet hc (setWorker_self s w _) (hframe _) rfl rfl rfl
            (.inr (.inr ⟨by rw [hc]; rfl, rfl, ?_⟩)) hOk⟩
          simp [Pc.holds]
      | perform =>
          obtain rfl := Option.some.inj h
          refine ⟨rfl, [], [treqPath], ⟨hframe _, rfl, rfl, (List.append_nil _).symm, rfl, ?_, ?_,
            .inl ⟨rfl, ?_⟩⟩, ?_⟩
          all_goals simp only [setWorker_self, hc]
          · rfl
          · exact Nat.zero_add _
          · rfl
          · exact ⟨by rw [show i = made from hOk.1]; rfl, hOk.2⟩
      | openFile | close | checkStatus =>
          obtain rfl := Option.some.inj h
          exact ⟨rfl, Flow.setWorker hc rfl rfl rfl rfl rfl rfl hOk⟩
      | cleanup =>
          obtain rfl := Option.some.inj h
          have hlt : i < s.nrequests := hOk.2
          have hdue : s.nrequests - (i + 1) = s.nrequests - i - 1 := by omega
          exact ⟨rfl, Flow.setWorker hc rfl rfl rfl (congrArg Int.toNat hdue) rfl rfl
            ⟨hOk.1, le_max_of_le_left hlt⟩⟩

/-! ### All workers -/

/-- The requests of one worker. -/
def State.madeBy (s : State ω) (w : ω) : List (ω × Ptr) := s.requested.filter fun x => x.1 = w

/-- What worker `w` adds to a record is filed under `w`. -/
theorem filter_pairs (w v : ω) (q : List Ptr) :
    (q.map (w, ·)).filter (fun x => x.1 = v) = if w = v then q.map (w, ·) else [] := by
  split
  · next hwv => simp [List.filter_map, Function.comp_def, hwv]
  · next hwv => simp [List.filter_map, Function.comp_def, hwv]

theorem LockMove.heldBy (hl : LockMove s s' w) (hframe : ∀ v ≠ w, s'.workers v = s.workers v)
    (hm : HeldBy s.workqlock fun v => (s.workers v).pc.holds) :
    HeldBy s'.workqlock fun v => (s'.workers v).pc.holds := by
  have hf : ∀ v ≠ w, (s'.workers v).pc.holds = (s.workers v).pc.holds := fun v hv => by rw [hframe v hv]
  obtain ⟨hlock, hw⟩ | ⟨hn, hlock, hw⟩ | ⟨hw, hlock, hw'⟩ := hl
  · rw [hlock]
    exact (hm.keep rfl).of_frame hw hf
  · rw [hlock]
    exact (hm.take hn).of_frame hw hf
  · rw [hlock]
    exact (hm.drop hw).of_frame hw' hf

variable [Fintype ω]

theorem sum_workers (f : Worker → ℕ) (hframe : ∀ v ≠ w, s'.workers v = s.workers v) :
    (∑ v, f (s'.workers v)) + f (s.workers w) = (∑ v, f (s.workers v)) + f (s'.workers w) := by
  have hrest : ∑ v ∈ Finset.univ.erase w, f (s'.workers v) =
      ∑ v ∈ Finset.univ.erase w, f (s.workers v) :=
    Finset.sum_congr rfl fun v hv => by rw [hframe v (Finset.ne_of_mem_erase hv)]
  rw [← Finset.add_sum_erase _ (fun v => f (s'.workers v)) (Finset.mem_univ w),
    ← Finset.add_sum_erase _ (fun v => f (s.workers v)) (Finset.mem_univ w), hrest]
  omega

/-- The paths popped and queued are those enqueued; each worker has requested what it has popped,
but for the path in its hands; the queue is as long as the pops still due. -/
structure Balanced (n : ℤ) (paths : List (List Byte)) (s : State ω) : Prop where
  nrequests : s.nrequests = n
  conserved : s.popped.map Prod.snd ++ s.workq = paths.map some
  balance : s.workq.length = ∑ w, (s.workers w).due n
  workers : ∀ w, (s.workers w).Ok n (s.madeBy w).length
  history : ∀ w, s.popped.filter (fun x => x.1 = w) = s.madeBy w ++ (s.workers w).pending.map (w, ·)
  lock : HeldBy s.workqlock fun w => (s.workers w).pc.holds

variable {paths : List (List Byte)}

theorem Balanced.workq_ne_nil (hB : Balanced n paths s) (hdue : 0 < (s.workers w).due n) :
    s.workq ≠ [] := by
  intro hnil
  have hle := Finset.single_le_sum (fun v _ => Nat.zero_le ((s.workers v).due n)) (Finset.mem_univ w)
  rw [← hB.balance, hnil] at hle
  exact absurd hle (Nat.not_le.mpr hdue)

theorem Balanced.notMem_none (hB : Balanced n paths s) : none ∉ s.workq := by
  intro hmem
  have hin : none ∈ paths.map some := by
    rw [← hB.conserved]
    exact List.mem_append_right _ hmem
  simp at hin

/-- A worker that tests for an empty queue, or pops, has a pop to do. -/
theorem Balanced.due_pos (hB : Balanced n paths s)
    (hp : (s.workers w).pc = .isempty ∨ (s.workers w).pc = .pop) : 0 < (s.workers w).due n := by
  have hOk := hB.workers w
  unfold Worker.Ok at hOk
  unfold Worker.due
  obtain hp | hp := hp <;> simp only [hp] at hOk ⊢ <;> omega

theorem Balanced.workerStep (hB : Balanced n paths s) (h : workerStep s w r = some s') :
    Balanced n paths s' := by
  obtain ⟨_, p, q, hF, hOk⟩ := workerStep_flow h (by rw [hB.nrequests]; exact hB.workers w)
    (fun hp => hB.workq_ne_nil (hB.due_pos hp)) hB.notMem_none
  have hdue := hF.due
  rw [hB.nrequests] at hdue hOk
  refine ⟨hF.nrequests.trans hB.nrequests, ?_, ?_, fun v => ?_, fun v => ?_,
    hF.lock.heldBy hF.frame hB.lock⟩
  · rw [← hB.conserved, hF.popped, hF.workq]
    simp [List.map_map, Function.comp_def]
  · have hsum := sum_workers (Worker.due n) hF.frame
    have hbal := hB.balance
    rw [hF.workq, List.length_append] at hbal
    omega
  · rcases eq_or_ne v w with rfl | hv
    · rw [State.madeBy, hF.requested, List.filter_append, filter_pairs, if_pos rfl, List.length_append,
        List.length_map]
      exact hOk
    · rw [State.madeBy, hF.requested, List.filter_append, filter_pairs, if_neg hv.symm, List.append_nil,
        hF.frame v hv]
      exact hB.workers v
  · rw [State.madeBy, hF.popped, hF.requested, List.filter_append, List.filter_append, filter_pairs,
      filter_pairs, hB.history v]
    rcases eq_or_ne v w with rfl | hv
    · rw [if_pos rfl, if_pos rfl, List.append_assoc, ← List.map_append, hF.pending, List.map_append,
        List.append_assoc]
      rfl
    · rw [if_neg hv.symm, if_neg hv.symm, hF.frame v hv, List.append_nil, List.append_nil]
      rfl

omit [DecidableEq ω] [Fintype ω] in
theorem toNat_mul_natCast (n : ℤ) (m : ℕ) : (n * m).toNat = m * n.toNat := by
  rcases le_or_gt 0 n with hn | hn
  · lift n to ℕ using hn
    rw [← Nat.cast_mul, Int.toNat_natCast, Int.toNat_natCast, Nat.mul_comm]
  · have hle : n * m ≤ 0 := Int.mul_nonpos_of_nonpos_of_nonneg hn.le (Int.natCast_nonneg m)
    rw [Int.toNat_of_nonpos hle, Int.toNat_of_nonpos hn.le, Nat.mul_zero]

theorem balanced_init (n : ℤ) (workload : ℕ → List Byte) :
    Balanced n (requestPaths n (Fintype.card ω) workload) (init ω n workload) where
  nrequests := rfl
  conserved := rfl
  balance := by
    simp only [init, requestPaths, Worker.due, List.map_map, List.length_map, List.length_range,
      sub_zero]
    rw [Finset.sum_const_nat (fun _ _ => rfl), Finset.card_univ]
    exact toNat_mul_natCast n (Fintype.card ω)
  workers w := by simp [init, State.madeBy, Worker.Ok]
  history w := by simp [init, State.madeBy, Worker.pending]
  lock w := by simp [init, Pc.holds]

theorem Reachable.balanced {workload : ℕ → List Byte} (h : Reachable n workload s) :
    Balanced n (requestPaths n (Fintype.card ω) workload) s := by
  apply h.invariant (balanced_init n workload)
  intro s a s' hB _ hs
  unfold step at hs
  split at hs
  · cases hs
  · exact hB.workerStep hs

omit [Fintype ω] in
/-- Records that agree worker by worker are the same up to order. -/
theorem perm_of_filter {l l' : List (ω × Ptr)}
    (h : ∀ w, l.filter (fun x => x.1 = w) = l'.filter fun x => x.1 = w) : l.Perm l' := by
  apply List.perm_iff_count.mpr
  intro x
  have hx := congrArg (List.count x) (h x.1)
  rwa [List.count_filter (by simp), List.count_filter (by simp)] at hx

/-- **Every request once**, for any number of workers and any interleaving: no worker meets an empty
queue, takes the underflow exit of `steque_pop` or leaves by a `break`; when all workers have ended,
the queue is empty, the mutex is free, the paths requested are those enqueued, each as often as it
was enqueued, and each worker has made `nrequests` requests. -/
theorem downloads_once (nrequests : ℤ) (workload : ℕ → List Byte) (s : State ω)
    (h : Reachable nrequests workload s) :
    (∀ w, (s.workers w).pc ≠ .unlockEmpty ∧ (s.workers w).pc ≠ .endedLocked ∧
      ((s.workers w).pc = .pop → s.workq ≠ [])) ∧
    ((∀ w, (s.workers w).pc = .ended ∨ (s.workers w).pc = .endedLocked) →
      s.workq = [] ∧ s.workqlock = none ∧
      (s.requested.map Prod.snd).Perm
        ((requestPaths nrequests (Fintype.card ω) workload).map some) ∧
      ∀ w, (s.madeBy w).length = nrequests.toNat) := by
  have hB := Reachable.balanced h
  have hne : ∀ w, (s.workers w).pc ≠ .unlockEmpty ∧ (s.workers w).pc ≠ .endedLocked := by
    intro w
    have hOk := hB.workers w
    unfold Worker.Ok at hOk
    constructor <;> intro hp <;> simp [hp] at hOk
  refine ⟨fun w => ⟨(hne w).1, (hne w).2, fun hp => hB.workq_ne_nil (hB.due_pos (.inr hp))⟩, fun hend => ?_⟩
  have hended : ∀ w, (s.workers w).pc = .ended := fun w => (hend w).resolve_right (hne w).2
  have hempty : s.workq = [] := by
    refine List.length_eq_zero_iff.mp (hB.balance.trans (Finset.sum_eq_zero fun w _ => ?_))
    simp [Worker.due, hended w]
  refine ⟨hempty, ?_, ?_, fun w => ?_⟩
  · cases hm : s.workqlock with
    | none => rfl
    | some w =>
        have hheld := (hB.lock w).mp hm
        simp [hended w, Pc.holds] at hheld
  · have hperm : s.popped.Perm s.requested := perm_of_filter fun w => by
      simpa [Worker.pending, hended w, State.madeBy] using hB.history w
    have hpopped : s.popped.map Prod.snd = (requestPaths nrequests (Fintype.card ω) workload).map some := by
      rw [← hB.conserved, hempty, List.append_nil]
    rw [← hpopped]
    exact (hperm.map Prod.snd).symm
  · have hOk := hB.workers w
    unfold Worker.Ok at hOk
    simp only [hended w] at hOk
    omega

/-- Two workers and one request each, both for the same path. -/
def twoRun : List (Bool × ℤ) :=
  List.replicate 9 (true, 0) ++ List.replicate 2 (false, 0) ++ List.replicate 4 (true, 0) ++
    List.replicate 11 (false, -1)

def twoEnd : State Bool :=
  (exec step (init Bool 1 fun _ => str "/a") twoRun).getD (init Bool 1 fun _ => str "/a")

theorem downloads_once_two :
    (∀ w, (twoEnd.workers w).pc = .ended) ∧ twoEnd.workqlock = none ∧
      ∀ w, (twoEnd.madeBy w).length = 1 := by
  have hended : ∀ w, (twoEnd.workers w).pc = .ended := by decide +kernel
  have h := (downloads_once 1 (fun _ => str "/a") twoEnd (reach_of_exec twoRun rfl)).2
    fun w => .inl (hended w)
  exact ⟨hended, h.2.1, h.2.2.2⟩

end OsProjects.MtDownload
