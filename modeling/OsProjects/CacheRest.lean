import OsProjects.RequestQueue
import OsProjects.RequestUses
import OsProjects.Termination
import Mathlib.Algebra.Order.BigOperators.Group.Finset
import Mathlib.Data.Fintype.Card

/-! # The cache comes to rest

Runs of `simplecached` with any messages, in which any call may fail and threads may also wake
without a signal.

* **Repeated calls.** A `shm_open` that fails is made again, and the exchange reads
  `msg->segment_size` as often as it calls `pread`: such a step is no progress, but it leaves a
  record in `uses`.
* **The end of the process.** A failure of `mq_receive`, `mmap` or `munmap` ends it.  `mq_receive`
  may fail at any call; it does so behind the first message where the bytes that it stores behind
  `data` fall on `m_queue`.
* `pays_left` — every other step is paid for by a message received or a spurious wakeup.
* `rest_of_stuck` — while no message arrives, the cache can stop only with an empty queue, or where
  the process has ended.
* `requests_taken` — from every state it gets there, and at rest it has taken and read every
  request. -/

namespace OsProjects.Simplecached

open Monitor Transition

variable {ω : Type*} [DecidableEq ω] {s s' : State ω} {w : ω} {ok : Bool} {m : Option Msg}

/-- The call is made again: `shm_open` has failed, or the exchange goes on. -/
def WorkerPc.again (p : WorkerPc) (ok : Bool) : ℕ :=
  match p, ok with
  | shmOpen, false | serve, true => 1
  | _, _ => 0

/-- No message arrives, and no thread wakes without a signal. -/
def Calm (s : State ω) : Act ω → Prop
  | .main _ => s.main ≠ .receive
  | .worker _ _ => True
  | .spuriousMain | .spuriousWorker _ => False

/-- A calm step of a call that is not to be made again, and does not end the process. -/
def Onward (s : State ω) (a : Act ω) : Prop :=
  Calm s a ∧ ∀ w ok, a = .worker w ok → (s.workers w).pc.again ok = 0 ∧
    ((s.workers w).pc = .mmap ∨ (s.workers w).pc = .munmap → ok = true)

/-! ### The steps that are left -/

/-- The steps that a worker has left before it sleeps or takes a request. -/
def WorkerPc.left : WorkerPc → ℕ
  | waitRequest w => w.left
  | pop => 1
  | decrement => 15
  | unlock => 14
  | signal => 13
  | get => 9
  | shmOpen => 8
  | ftruncate => 7
  | mmap => 6
  | serve => 5
  | munmap => 4

/-- The steps that `main` has left for its message, with those of the `n` workers that it wakes and
of the one that takes the request. -/
def MainPc.left (n : ℕ) : MainPc → ℕ
  | receive => 0
  | waitRoom w => w.left + (18 + 3 * n)
  | enqueue => 19 + 3 * n
  | increment => 3 + 3 * n
  | unlock => 2 + 3 * n
  | broadcast => 1 + 3 * n

/-- What a message costs in all. -/
def price (n : ℕ) : ℕ := 22 + 3 * n

theorem WorkerPc.left_wake (p : WorkerPc) : p.wake.left ≤ p.left + 3 := by
  cases p with
  | waitRequest w => exact w.left_wake
  | _ => exact Nat.le_add_right _ _

theorem MainPc.left_wake (n : ℕ) (p : MainPc) : p.wake.left n ≤ p.left n + 3 := by
  cases p with
  | waitRoom w =>
      have hwake := w.left_wake
      simp only [MainPc.wake, MainPc.left]
      omega
  | _ => exact Nat.le_add_right _ _

/-- The steps left of all but the workers: those of `main`, of the requests in the queue, and one
that ends the process. -/
def State.shared (n : ℕ) (s : State ω) : ℕ :=
  s.main.left n + 15 * s.mqDataQueue.length + bif s.exited then 0 else 1

/-- A step of worker `w` brings it closer to its sleep, or is a call to be made again. -/
theorem workerStep_left (n : ℕ) (halive : s.exited = false) (h : workerStep s w ok = some s') :
    (s'.workers w).pc.left + s'.shared n + 1 ≤
        (s.workers w).pc.left + s.shared n + (s.workers w).pc.again ok ∧
      s.uses.length + (s.workers w).pc.again ok ≤ s'.uses.length ∧ s'.received = s.received := by
  unfold workerStep at h
  cases hp : (s.workers w).pc with
  | waitRequest p =>
      simp only [hp, Option.map_eq_some_iff] at h
      obtain ⟨⟨op, q⟩, hs, rfl⟩ := h
      have hleft := Wait.left_of_step hs
      refine ⟨?_, le_refl _, rfl⟩
      rw [setWorker_self]
      simp only [State.shared, WorkerPc.again, State.setWorker, WorkerPc.left]
      cases q with
      | none =>
          simp only [Option.elim_none] at hleft ⊢
          omega
      | some p' =>
          simp only [Option.elim_some] at hleft ⊢
          omega
  | pop =>
      simp only [hp] at h
      split at h <;> obtain rfl := Option.some.inj h
      · refine ⟨?_, le_refl _, rfl⟩
        simp only [State.shared, hp, WorkerPc.again, halive, cond_true, cond_false]
        omega
      · next t q hq =>
          refine ⟨?_, le_refl _, rfl⟩
          rw [setWorker_self]
          simp only [State.shared, State.setWorker, hq, List.length_cons, WorkerPc.again,
            WorkerPc.left]
          omega
  | signal =>
      simp only [hp, Option.some.injEq] at h
      subst h
      have hwake := s.main.left_wake n
      refine ⟨?_, le_refl _, rfl⟩
      rw [setWorker_self]
      simp only [State.shared, State.setWorker, WorkerPc.again, WorkerPc.left]
      omega
  | decrement | unlock =>
      simp only [hp, Option.some.injEq] at h
      subst h
      refine ⟨?_, le_refl _, rfl⟩
      rw [setWorker_self]
      simp only [State.shared, State.setWorker, WorkerPc.again, WorkerPc.left]
      omega
  | get | shmOpen | ftruncate | mmap | serve | munmap =>
      cases ok <;> simp only [hp, Option.some.injEq, if_true, Bool.false_eq_true, if_false] at h <;>
        subst h <;> refine ⟨?_, ?_, rfl⟩ <;>
        simp [State.shared, State.use, State.setWorker, WorkerPc.again, WorkerPc.left, Wait.left,
          halive] <;> omega

theorem sum_workerStep [Fintype ω] (h : workerStep s w ok = some s') :
    ∑ v, (s'.workers v).pc.left + (s.workers w).pc.left =
      ∑ v, (s.workers v).pc.left + (s'.workers w).pc.left :=
  sum_step w (f := fun v => (s'.workers v).pc.left) (g := fun v => (s.workers v).pc.left)
    fun v hv => by rw [workerStep_frame h v hv]

variable [Fintype ω]

/-- The steps that the cache has left if nothing further arrives and no call is made again. -/
def State.left (s : State ω) : ℕ := s.shared (Fintype.card ω) + ∑ w, (s.workers w).pc.left

/-- What the messages received and the fields read pay for. -/
def State.credit (s : State ω) : ℕ := price (Fintype.card ω) * s.received.length + s.uses.length

/-- A spurious wakeup takes a step and makes a thread test again. -/
def Act.credit : Act ω → ℕ
  | .spuriousMain | .spuriousWorker _ => 4
  | .main _ | .worker _ _ => 0

omit [DecidableEq ω] in
theorem mainStep_left (halive : s.exited = false) (h : mainStep s m = some s') :
    s'.left + price (Fintype.card ω) * s.received.length + 1 ≤
        s.left + price (Fintype.card ω) * s'.received.length ∧ s'.uses = s.uses ∧
      (s.main ≠ .receive → s'.received = s.received) := by
  unfold mainStep at h
  cases hp : s.main with
  | receive =>
      simp only [hp] at h
      cases m with
      | none =>
          obtain rfl := Option.some.inj h
          refine ⟨?_, rfl, fun _ => rfl⟩
          simp only [State.left, State.shared, hp, halive, cond_true, cond_false]
          omega
      | some m =>
          obtain rfl := Option.some.inj h
          refine ⟨?_, rfl, fun hne => absurd rfl hne⟩
          simp only [State.left, State.shared, hp, MainPc.left, Wait.left, List.length_append,
            List.length_singleton, Nat.mul_add, Nat.mul_one, price]
          omega
  | waitRoom p =>
      simp only [hp, Option.map_eq_some_iff] at h
      obtain ⟨⟨op, q⟩, hs, rfl⟩ := h
      have hleft := Wait.left_of_step hs
      refine ⟨?_, rfl, fun _ => rfl⟩
      simp only [State.left, State.shared, hp]
      cases q with
      | none =>
          simp only [Option.elim_none, MainPc.left] at hleft ⊢
          omega
      | some p' =>
          simp only [Option.elim_some, MainPc.left] at hleft ⊢
          omega
  | broadcast =>
      simp only [hp, Option.some.injEq] at h
      subst h
      have hwake : ∑ w, (s.workers w).pc.wake.left ≤ ∑ w, ((s.workers w).pc.left + 3) :=
        Finset.sum_le_sum fun w _ => (s.workers w).pc.left_wake
      rw [Finset.sum_add_distrib, Finset.sum_const_nat (m := 3) fun _ _ => rfl,
        Finset.card_univ] at hwake
      refine ⟨?_, rfl, fun _ => rfl⟩
      simp only [State.left, State.shared, hp, MainPc.left]
      omega
  | enqueue =>
      simp only [hp, Option.some.injEq] at h
      subst h
      refine ⟨?_, rfl, fun _ => rfl⟩
      simp only [State.left, State.shared, hp, MainPc.left, List.length_append,
        List.length_singleton]
      omega
  | increment | unlock =>
      simp only [hp, Option.some.injEq] at h
      subst h
      refine ⟨?_, rfl, fun _ => rfl⟩
      simp only [State.left, State.shared, hp, MainPc.left]
      omega

/-- **Every step is paid for**: by a message, as a read through a pointer, or as a spurious
wakeup. -/
theorem pays_left : Pays step Any (init ω) State.left State.credit Act.credit := by
  intro s a s' _ _ hs
  unfold step at hs
  obtain ⟨halive, hs⟩ := Option.ite_none_left_eq_some.mp hs
  rw [Bool.not_eq_true] at halive
  cases a with
  | main m =>
      obtain ⟨hleft, huses, -⟩ := mainStep_left halive hs
      simp only [State.credit, Act.credit, huses]
      omega
  | worker w ok =>
      obtain ⟨hleft, huses, hreceived⟩ := workerStep_left (Fintype.card ω) halive hs
      have hsum := sum_workerStep hs
      simp only [State.left, State.credit, Act.credit, hreceived]
      omega
  | spuriousMain =>
      obtain rfl := Option.some.inj hs
      have hwake := s.main.left_wake (Fintype.card ω)
      simp only [State.left, State.shared, State.credit, Act.credit]
      omega
  | spuriousWorker w =>
      obtain rfl := Option.some.inj hs
      have hwake := (s.workers w).pc.left_wake
      have hsum := sum_step w (f := fun v => ((s.setWorker w
          { s.workers w with pc := (s.workers w).pc.wake }).workers v).pc.left)
        (g := fun v => (s.workers v).pc.left) fun v hv => by rw [setWorker_of_ne s _ hv]
      simp only [setWorker_self] at hsum
      simp only [State.left, State.shared, State.credit, Act.credit, State.setWorker] at hsum ⊢
      omega

theorem lowers_left (s₀ : State ω) : Lowers step Onward s₀ State.left := by
  intro s a s' _ ha hs
  obtain ⟨hcalm, honward⟩ := ha
  unfold step at hs
  obtain ⟨halive, hs⟩ := Option.ite_none_left_eq_some.mp hs
  rw [Bool.not_eq_true] at halive
  cases a with
  | main m =>
      obtain ⟨hleft, -, hreceived⟩ := mainStep_left halive hs
      rw [hreceived hcalm] at hleft
      omega
  | worker w ok =>
      obtain ⟨hleft, -, -⟩ := workerStep_left (Fintype.card ω) halive hs
      have hsum := sum_workerStep hs
      rw [(honward w ok rfl).1] at hleft
      simp only [State.left]
      omega
  | spuriousMain | spuriousWorker w => exact hcalm.elim

omit [DecidableEq ω] in
theorem left_init : (init ω).left = 3 * Fintype.card ω + 1 := by
  simp only [State.left, State.shared, init, MainPc.left, WorkerPc.left, Wait.left, List.length_nil,
    cond_false]
  rw [Finset.sum_const_nat (m := 3) fun _ _ => rfl, Finset.card_univ]
  omega

/-! ### Rest -/

/-- Every message has been handed over: `main` waits for the next one, and every worker sleeps in
front of an empty queue. -/
structure Rest (s : State ω) : Prop where
  main : s.main = .receive
  free : s.msgqMutex = none
  workers : ∀ w, (s.workers w).pc = .waitRequest .asleep
  queue : s.mqDataQueue = []

omit [Fintype ω] in
theorem workerStep_isSome (hasleep : (s.workers w).pc ≠ .waitRequest .asleep)
    (hlock : s.msgqMutex = none ∨ (s.workers w).pc.holds = true) :
    ∃ ok, Onward s (.worker w ok) ∧ (workerStep s w ok).isSome = true := by
  have honward : ∀ {ok}, (s.workers w).pc.again ok = 0 →
      ((s.workers w).pc = .mmap ∨ (s.workers w).pc = .munmap → ok = true) →
        Onward s (.worker w ok) := by
    intro ok hagain hmapped
    refine ⟨trivial, fun v ok' heq => ?_⟩
    obtain ⟨rfl, rfl⟩ := Act.worker.inj heq
    exact ⟨hagain, hmapped⟩
  unfold workerStep
  dsimp only
  cases hp : (s.workers w).pc with
  | waitRequest p =>
      refine ⟨true, honward (by rw [hp]; rfl) fun _ => rfl, ?_⟩
      rw [hp] at hlock hasleep
      have hfree : s.msgqMutex.isNone = true ∨ p.holds = true :=
        hlock.imp_left Option.isNone_iff_eq_none.mpr
      simpa using Wait.step_isSome (fun h => hasleep (by rw [h])) hfree
  | pop =>
      refine ⟨true, honward (by rw [hp]; rfl) fun _ => rfl, ?_⟩
      cases hq : s.mqDataQueue <;> simp
  | serve => exact ⟨false, honward (by rw [hp]; rfl) (by simp [hp]), rfl⟩
  | _ => exact ⟨true, honward (by rw [hp]; rfl) fun _ => rfl, rfl⟩

omit [DecidableEq ω] [Fintype ω] in
/-- `main` can go on with its message, unless it sleeps or waits for the mutex. -/
theorem mainStep_isSome (hasleep : s.main ≠ .waitRoom .asleep)
    (hlock : s.msgqMutex = none ∨ s.main.holds = true) : (mainStep s m).isSome = true := by
  unfold mainStep
  cases hp : s.main with
  | receive => cases m <;> rfl
  | waitRoom p =>
      rw [hp] at hlock hasleep
      have hfree : s.msgqMutex.isNone = true ∨ p.holds = true :=
        hlock.imp_left Option.isNone_iff_eq_none.mpr
      simpa using Wait.step_isSome (fun h => hasleep (by rw [h])) hfree
  | _ => rfl

omit [Fintype ω] in
/-- **No deadlock**: where nothing but a message, a spurious wakeup or a repeated call can happen,
the cache is at rest. -/
theorem rest_of_stuck [Nonempty ω] (hB : Buffer s) (hW : Wakeups s) (halive : s.exited = false)
    (hstuck : Stuck step Onward s) : Rest s := by
  have hworker : ∀ w, s.msgqMutex = none ∨ (s.workers w).pc.holds = true →
      (s.workers w).pc = .waitRequest .asleep := by
    intro w hlock
    by_contra hasleep
    obtain ⟨ok, honward, hsome⟩ := workerStep_isSome hasleep hlock
    have hnone := hstuck (.worker w ok) honward
    simp [step, halive] at hnone
    simp [hnone] at hsome
  have hmain : s.msgqMutex = none ∨ s.main.holds = true →
      s.main = .receive ∨ s.main = .waitRoom .asleep := by
    intro hlock
    by_contra hgo
    obtain ⟨hreceive, hasleep⟩ := not_or.mp hgo
    have hsome := mainStep_isSome (m := none) hasleep hlock
    have hnone := hstuck (.main none) ⟨hreceive, fun w ok heq => by cases heq⟩
    simp [step, halive] at hnone
    simp [hnone] at hsome
  -- the thread that held the mutex could go on
  have hfree : s.msgqMutex = none := by
    by_contra hheld
    obtain ⟨u, hu⟩ := Option.ne_none_iff_exists'.mp hheld
    have hholds := (hB.lock u).mp hu
    cases u with
    | main =>
        obtain hp | hp := hmain (.inr hholds) <;>
          simp [State.holds, hp, MainPc.holds, Wait.holds] at hholds
    | worker v =>
        have hp := hworker v (.inr hholds)
        simp [State.holds, hp, WorkerPc.holds, Wait.holds] at hholds
  have hasleep : ∀ w, (s.workers w).pc = .waitRequest .asleep := fun w => hworker w (.inl hfree)
  obtain ⟨v⟩ := ‹Nonempty ω›
  have hreceive : s.main = .receive := by
    refine (hmain (.inl hfree)).resolve_right fun hwait => ?_
    -- `main` would sleep in front of a full queue, and the workers in front of the same
    obtain hfull | ⟨w, hw⟩ := hW.main hwait
    · obtain hnil | howes := hW.worker v (hasleep v)
      · rw [hnil] at hfull
        cases hfull
      · rw [hwait] at howes
        cases howes
    · rw [hasleep w] at hw
      cases hw
  refine ⟨hreceive, hfree, hasleep, (hW.worker v (hasleep v)).resolve_right fun howes => ?_⟩
  rw [hreceive] at howes
  cases howes

end OsProjects.Simplecached
