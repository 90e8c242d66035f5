import OsProjects.ConcurrentTransfers
import OsProjects.Termination
import Mathlib.Algebra.Order.BigOperators.Group.Finset
import Mathlib.Data.Fintype.Card

/-! # The server comes to rest

Runs of the multithreaded server in which `pread` delivers at least a byte and `gfs_send` takes at
least a byte of what it is given (`Smooth`); requests may be for unknown paths and threads may wake
without a broadcast.

* `Worker.Fine` — what a worker knows of its task in such a run.
* `pays_left` — every step is paid for by the size of the files requested.
* `work_bounded` — the number of steps is linear in the bytes behind the paths requested.
* `requests_served` — without further requests every run ends, with the queue empty or every
  worker returned because of an unknown path. -/

namespace OsProjects.MtServer

open Monitor Transition

variable {ω κ : Type*} [DecidableEq ω] {E : Env} {s s' : State ω κ} {w : ω} {r : ℤ} {q : Task κ}
  {c : Worker κ} {j : Worker κ × Option ℕ}

/-- `pread` delivers something, and `gfs_send` takes some or all of it. -/
def Moves (c : Worker κ) (r : ℤ) : Prop :=
  (c.pc = .pread → 1 ≤ r) ∧ (c.pc = .send → 1 ≤ r ∧ r ≤ c.readLen)

instance (c : Worker κ) (r : ℤ) : Decidable (Moves c r) := inferInstanceAs (Decidable (_ ∧ _))

/-- Files are read and sent without failures. -/
def Smooth (s : State ω κ) : Act ω κ → Prop
  | .worker w r => Moves (s.workers w) r
  | .boss _ | .spurious _ => True

/-- A smooth step that neither begins a call of `handler_get` nor wakes a thread by itself. -/
def Quiet (s : State ω κ) : Act ω κ → Prop
  | .boss _ => s.boss ≠ .idle
  | .worker w r => Moves (s.workers w) r
  | .spurious _ => False

instance (s : State ω κ) : (a : Act ω κ) → Decidable (Smooth s a)
  | .worker w r => inferInstanceAs (Decidable (Moves (s.workers w) r))
  | .boss _ | .spurious _ => isTrue trivial

omit [DecidableEq ω] in
theorem Quiet.smooth {a : Act ω κ} (h : Quiet s a) : Smooth s a := by
  cases a with
  | boss q => trivial
  | worker w r => exact h
  | spurious w => trivial

/-! ### A worker and its task -/

/-- What a worker at this point knows of its task in a smooth run. -/
def Worker.Fine (E : Env) (c : Worker κ) : Prop :=
  match c.pc with
  | .waitTask _ | .pop | .lseek => True
  | .unlock | .contentGet => ∃ t, c.job = some t
  | .sendNotFound | .returned => ∃ t, c.job = some t ∧ E.contentGet t.path < 0
  | .sendOk => c.fileLen ≤ (E.contents c.fildes).length
  | .copy => 0 ≤ c.bytesTransferred ∧ c.fileLen ≤ (E.contents c.fildes).length
  | .pread =>
      0 ≤ c.bytesTransferred ∧ c.bytesTransferred < c.fileLen ∧
        c.fileLen ≤ (E.contents c.fildes).length
  | .send =>
      0 ≤ c.bytesTransferred ∧ c.bytesTransferred < c.fileLen ∧
        c.fileLen ≤ (E.contents c.fildes).length ∧ 1 ≤ c.readLen
  | .writeError | .writeAbort | .advance =>
      0 ≤ c.bytesTransferred ∧ c.bytesTransferred < c.fileLen ∧
        c.fileLen ≤ (E.contents c.fildes).length ∧ 1 ≤ c.writeLen
  | .readError | .readAbort => False

/-- The steps that answering a task takes, and those of taking it from the queue. -/
def cost (E : Env) (t : Task κ) : ℕ := 6 * (E.fileOf t).length + 8

/-- The steps that a worker has left before it sleeps or takes the next task. -/
def Worker.left (E : Env) (c : Worker κ) : ℕ :=
  match c.pc with
  | .waitTask w => w.left
  | .pop => 1
  | .returned => 0
  | .unlock => c.job.elim 0 (cost E)
  | .contentGet => c.job.elim 0 (cost E) - 1
  | .sendNotFound => 1
  | .lseek => 6 * (E.contents c.fildes).length + 6
  | .sendOk => 6 * c.fileLen.toNat + 5
  | .copy => 6 * (c.fileLen - c.bytesTransferred).toNat + 4
  | .pread => 6 * (c.fileLen - c.bytesTransferred).toNat + 3
  | .readError | .readAbort => 0
  | .send => 6 * (c.fileLen - c.bytesTransferred).toNat + 2
  | .writeError => 6 * (c.fileLen - c.bytesTransferred - c.writeLen).toNat + 7
  | .writeAbort => 6 * (c.fileLen - c.bytesTransferred - c.writeLen).toNat + 6
  | .advance => 6 * (c.fileLen - c.bytesTransferred - c.writeLen).toNat + 5

/-- A step for the task keeps what is known of it and brings the worker closer to its end. -/
theorem Worker.Fine.jobStep (hc : c.Fine E) (hr : Moves c r) (h : jobStep E c r = some j) :
    j.1.Fine E ∧ j.1.left E + 1 ≤ c.left E ∧ j.1.job = c.job := by
  unfold MtServer.jobStep at h
  unfold Worker.Fine at hc
  unfold Moves at hr
  cases hp : c.pc with
  | waitTask _ | pop | unlock | returned => simp [hp] at h
  | readError | readAbort => simp [hp] at hc
  | sendNotFound =>
      simp only [hp, Option.some.injEq] at h hc
      subst h
      refine ⟨hc, ?_, rfl⟩
      simp [Worker.left, hp]
  | contentGet =>
      simp only [hp, Option.map_eq_some_iff] at h hc
      obtain ⟨t, ht, rfl⟩ := h
      by_cases hlt : E.contentGet t.path < 0
      · rw [if_pos hlt]
        refine ⟨⟨t, ht, hlt⟩, ?_, rfl⟩
        simp [Worker.left, hp, ht, cost, Env.fileOf]
      · rw [if_neg hlt]
        refine ⟨trivial, ?_, rfl⟩
        simp [Worker.left, hp, ht, cost, Env.fileOf]
  | lseek =>
      simp only [hp] at h
      split at h <;> obtain rfl := Option.some.inj h
      · refine ⟨?_, ?_, rfl⟩
        · show (-1 : ℤ) ≤ _
          omega
        · simp [Worker.left, hp]
      · refine ⟨le_refl _, ?_, rfl⟩
        simp [Worker.left, hp]
  | sendOk =>
      simp only [hp, Option.some.injEq] at h hc
      subst h
      refine ⟨⟨le_refl 0, hc⟩, ?_, rfl⟩
      simp [Worker.left, hp]
  | copy =>
      simp only [hp, Option.some.injEq] at h hc
      subst h
      by_cases hlt : c.bytesTransferred < c.fileLen
      · simp only [if_pos hlt]
        refine ⟨⟨hc.1, hlt, hc.2⟩, ?_, trivial⟩
        simp [Worker.left, hp]
      · simp only [if_neg hlt]
        refine ⟨trivial, ?_, trivial⟩
        simp [Worker.left, hp, Wait.left]
  | pread =>
      simp only [hp, Option.some.injEq] at h hc
      subst h
      have hpos := (preadAt_pos (E.contents c.fildes) hc.1 (by omega) (hr.1 hp)).1
      simp only [if_neg (not_le.mpr hpos)]
      refine ⟨⟨hc.1, hc.2.1, hc.2.2, hpos⟩, ?_, trivial⟩
      simp [Worker.left, hp]
  | send =>
      simp only [hp, Option.some.injEq] at h hc
      subst h
      obtain ⟨hnonneg, hlt, hle, _⟩ := hc
      obtain ⟨hone, _⟩ := hr.2 hp
      by_cases heq : r = c.readLen
      · simp only [if_pos heq]
        refine ⟨⟨hnonneg, hlt, hle, hone⟩, ?_, trivial⟩
        simp only [Worker.left, hp]
        omega
      · simp only [if_neg heq]
        refine ⟨⟨hnonneg, hlt, hle, hone⟩, ?_, trivial⟩
        simp only [Worker.left, hp]
        omega
  | writeError | writeAbort =>
      simp only [hp, Option.some.injEq] at h hc
      subst h
      refine ⟨hc, ?_, rfl⟩
      simp [Worker.left, hp]
  | advance =>
      simp only [hp, Option.some.injEq] at h hc
      subst h
      refine ⟨⟨by show 0 ≤ c.bytesTransferred + c.writeLen; omega, hc.2.2.1⟩, ?_, rfl⟩
      simp only [Worker.left, hp]
      omega

/-- The worker has a task. -/
def WorkerPc.hired : WorkerPc → Bool
  | waitTask _ | pop => false
  | _ => true

@[simp] theorem WorkerPc.hired_wake (p : WorkerPc) : p.wake.hired = p.hired := by
  cases p <;> rfl

theorem Worker.Fine.wake (hc : c.Fine E) : Worker.Fine E { c with pc := c.pc.wake } := by
  cases hp : c.pc with
  | waitTask w => trivial
  | _ =>
      have heq : c.pc.wake = c.pc := by rw [hp]; rfl
      rw [← hp, heq]
      exact hc

/-- A worker that wakes has the mutex to take again, and its test to repeat. -/
theorem Worker.left_wake (c : Worker κ) : Worker.left E { c with pc := c.pc.wake } ≤ c.left E + 3 := by
  cases hp : c.pc with
  | waitTask w =>
      have hwake := w.left_wake
      simpa [Worker.left, WorkerPc.wake, hp] using hwake
  | _ =>
      have heq : c.pc.wake = c.pc := by rw [hp]; rfl
      rw [← hp, heq]
      exact Nat.le_add_right _ _

/-- A step of the waiting loop brings the worker closer to its sleep or to the queue. -/
theorem Worker.left_wait {p : Wait} {free ok : Bool} {op : MutexOp} {n : Option Wait}
    (hp : c.pc = .waitTask p) (hs : p.step .pthread free ok = some (op, n)) :
    Worker.left E { c with pc := n.elim .pop .waitTask } < c.left E := by
  have hleft := Wait.left_of_step hs
  cases n with
  | none => simpa [Worker.left, hp] using hleft
  | some w => simpa [Worker.left, hp] using hleft

/-! ### All threads -/

/-- What is known of all workers in a smooth run; the tasks they have are tasks taken. -/
structure Fine (E : Env) (s : State ω κ) : Prop where
  workers : ∀ w, (s.workers w).Fine E
  hired : ∀ w t, (s.workers w).pc.hired = true → (s.workers w).job = some t → (w, t) ∈ s.taken

omit [DecidableEq ω] in
theorem fine_init : Fine E (init ω κ) where
  workers _ := trivial
  hired w t h := by cases h

/-- The steps that the tasks in the queue will take. -/
def State.queued (E : Env) (s : State ω κ) : ℕ := (s.workq.map (cost E)).sum

theorem workerStep_called (h : workerStep E s w r = some s') :
    s'.boss = s.boss ∧ s'.request = s.request ∧ s'.t = s.t ∧ s'.enqueued = s.enqueued := by
  unfold workerStep at h
  cases hp : (s.workers w).pc with
  | waitTask p =>
      simp only [hp, Option.map_eq_some_iff] at h
      obtain ⟨_, _, rfl⟩ := h
      exact ⟨rfl, rfl, rfl, rfl⟩
  | pop =>
      simp only [hp] at h
      split at h <;> obtain rfl := Option.some.inj h <;> exact ⟨rfl, rfl, rfl, rfl⟩
  | unlock =>
      simp only [hp, Option.some.injEq] at h
      subst h
      exact ⟨rfl, rfl, rfl, rfl⟩
  | _ =>
      simp only [hp, Option.map_eq_some_iff] at h
      obtain ⟨_, _, rfl⟩ := h
      exact ⟨rfl, rfl, rfl, rfl⟩

theorem Fine.workerStep (hF : Fine E s) (hQ : Queue s) (hr : Moves (s.workers w) r)
    (h : workerStep E s w r = some s') :
    Fine E s' ∧
      (s'.workers w).left E + s'.queued E + 1 ≤ (s.workers w).left E + s.queued E := by
  have hframe := workerStep_frame h
  have hw := hF.workers w
  -- that the other workers stay as they are settles all but what `w` knows and has taken
  suffices hs : (s'.workers w).Fine E ∧ s.taken ⊆ s'.taken ∧
      (∀ t, (s'.workers w).pc.hired = true → (s'.workers w).job = some t → (w, t) ∈ s'.taken) ∧
      (s'.workers w).left E + s'.queued E + 1 ≤ (s.workers w).left E + s.queued E by
    obtain ⟨hw', htaken, hhired, hrest⟩ := hs
    refine ⟨⟨fun v => ?_, fun v t => ?_⟩, hrest⟩
    · rcases eq_or_ne v w with rfl | hv
      · exact hw'
      · rw [hframe v hv]
        exact hF.workers v
    · rcases eq_or_ne v w with rfl | hv
      · exact hhired t
      · rw [hframe v hv]
        intro hp hjob
        exact htaken (hF.hired v t hp hjob)
  unfold MtServer.workerStep at h
  cases hp : (s.workers w).pc with
  | waitTask p =>
      simp only [hp, Option.map_eq_some_iff] at h
      obtain ⟨⟨op, n⟩, hs, rfl⟩ := h
      have hleft := Worker.left_wait (E := E) hp hs
      refine ⟨?_, List.Subset.refl _, ?_, ?_⟩
      · rw [setWorker_self]
        cases n <;> trivial
      · intro t hhired
        rw [setWorker_self] at hhired
        cases n <;> cases hhired
      · rw [setWorker_self]
        rw [Nat.add_right_comm]
        exact Nat.add_le_add_right hleft _
  | pop =>
      simp only [hp] at h
      split at h <;> obtain rfl := Option.some.inj h
      · next hq => exact absurd hq (hQ.worker hp rfl)
      · next t q hq =>
          refine ⟨?_, List.subset_append_left _ _, ?_, ?_⟩
          · rw [setWorker_self]
            exact ⟨t, rfl⟩
          · intro t' _ hjob
            rw [setWorker_self] at hjob
            obtain rfl := Option.some.inj hjob
            exact List.mem_append_right _ (List.mem_singleton_self _)
          · rw [setWorker_self]
            simp only [State.queued, hq, Worker.left, hp, List.map_cons, List.sum_cons, Option.elim]
            omega
  | unlock =>
      simp only [hp, Option.some.injEq] at h
      subst h
      unfold Worker.Fine at hw
      simp only [hp] at hw
      obtain ⟨t, ht⟩ := hw
      refine ⟨?_, List.Subset.refl _, ?_, ?_⟩
      · rw [setWorker_self]
        exact ⟨t, ht⟩
      · intro t' _ hjob
        rw [setWorker_self] at hjob
        exact hF.hired w t' (by rw [hp]; rfl) hjob
      · rw [setWorker_self]
        simp only [State.queued, State.setWorker, Worker.left, hp, ht, Option.elim, cost]
        omega
  | _ =>
      simp only [hp, Option.map_eq_some_iff] at h
      obtain ⟨j, hj, rfl⟩ := h
      obtain ⟨hfine, hleft, hjob⟩ := hw.jobStep hr hj
      refine ⟨?_, List.Subset.refl _, ?_, ?_⟩
      · rw [setWorker_self]
        exact hfine
      · intro t _ ht
        rw [setWorker_self, hjob] at ht
        exact hF.hired w t (by rw [hp]; rfl) ht
      · rw [setWorker_self]
        show _ + s.queued E + 1 ≤ _
        omega

variable [Fintype ω]

/-- The steps that the present call of `handler_get` has left, and those that it brings. -/
def State.called (E : Env) (s : State ω κ) : ℕ :=
  match s.boss with
  | .idle => 0
  | .lock => s.request.elim 0 (cost E) + 3 * Fintype.card ω + 5
  | .malloc => s.request.elim 0 (cost E) + 3 * Fintype.card ω + 4
  | .enqueue => s.t.elim 0 (cost E) + 3 * Fintype.card ω + 3
  | .unlock => 3 * Fintype.card ω + 2
  | .broadcast => 3 * Fintype.card ω + 1

/-- The steps that the server has left if nothing further arrives. -/
def State.left (E : Env) (s : State ω κ) : ℕ :=
  s.called E + s.queued E + ∑ w, (s.workers w).left E

omit [DecidableEq ω] [Fintype ω] in
/-- The tasks for which `handler_get` has been called, in order. -/
def State.requested (s : State ω κ) : List (Task κ) :=
  s.enqueued ++
    match s.boss with
    | .lock | .malloc => s.request.toList
    | .enqueue => s.t.toList
    | .idle | .unlock | .broadcast => []

/-- What a request may cost in all: its answer, its call and the threads that it wakes. -/
def price (ω : Type*) [Fintype ω] (E : Env) (t : Task κ) : ℕ := cost E t + 3 * Fintype.card ω + 6

def State.credit (E : Env) (s : State ω κ) : ℕ := (s.requested.map (price ω E)).sum

/-- A spurious wakeup takes a step and makes a thread test again. -/
def Act.credit : Act ω κ → ℕ
  | .spurious _ => 4
  | .boss _ | .worker _ _ => 0

omit [DecidableEq ω] in
theorem Fine.bossStep (hF : Fine E s) (h : bossStep s q = some s') :
    Fine E s' ∧ s'.left E + s.credit E + 1 ≤ s.left E + s'.credit E := by
  obtain ⟨hworkers, hhired⟩ := hF
  unfold MtServer.bossStep at h
  cases hp : s.boss with
  | lock =>
      simp only [hp] at h
      obtain ⟨_, h⟩ := Option.ite_none_right_eq_some.mp h
      obtain rfl := Option.some.inj h
      refine ⟨⟨hworkers, hhired⟩, ?_⟩
      · simp only [State.left, State.called, State.queued, State.credit, State.requested, hp]
        omega
  | broadcast =>
      simp only [hp, Option.some.injEq] at h
      subst h
      have hwake : ∑ w, Worker.left E { s.workers w with pc := (s.workers w).pc.wake } ≤
          ∑ w, ((s.workers w).left E + 3) :=
        Finset.sum_le_sum fun w _ => (s.workers w).left_wake
      rw [Finset.sum_add_distrib, Finset.sum_const_nat (m := 3) fun _ _ => rfl,
        Finset.card_univ] at hwake
      dsimp only at hwake
      refine ⟨⟨fun w => (hworkers w).wake, fun w t hh => ?_⟩, ?_⟩
      · rw [WorkerPc.hired_wake] at hh
        exact hhired w t hh
      · simp only [State.left, State.called, State.queued, State.credit, State.requested, hp]
        omega
  | idle =>
      simp only [hp, Option.some.injEq] at h
      subst h
      refine ⟨⟨hworkers, hhired⟩, ?_⟩
      · simp [State.left, State.called, State.queued, State.credit, State.requested, hp, price]
        omega
  | enqueue =>
      simp only [hp, Option.some.injEq] at h
      subst h
      refine ⟨⟨hworkers, hhired⟩, ?_⟩
      · cases ht : s.t <;>
          simp [State.left, State.called, State.queued, State.credit, State.requested, hp, ht] <;>
          omega
  | malloc | unlock =>
      simp only [hp, Option.some.injEq] at h
      subst h
      refine ⟨⟨hworkers, hhired⟩, ?_⟩
      · simp only [State.left, State.called, State.queued, State.credit, State.requested, hp]
        omega

omit [Fintype ω] in
theorem Fine.spurious (hF : Fine E s) (w : ω) :
    Fine E (s.setWorker w { s.workers w with pc := (s.workers w).pc.wake }) := by
  constructor
  · intro v
    rcases eq_or_ne v w with rfl | hv
    · rw [setWorker_self]
      exact (hF.workers v).wake
    · rw [setWorker_of_ne s _ hv]
      exact hF.workers v
  · intro v t
    rcases eq_or_ne v w with rfl | hv
    · rw [setWorker_self, WorkerPc.hired_wake]
      exact hF.hired v t
    · rw [setWorker_of_ne s _ hv]
      exact hF.hired v t

theorem Fine.step {a : Act ω κ} (hF : Fine E s) (hQ : Queue s) (ha : Smooth s a)
    (h : step E s a = some s') : Fine E s' := by
  unfold MtServer.step at h
  obtain ⟨_, h⟩ := Option.ite_none_left_eq_some.mp h
  cases a with
  | boss q => exact (hF.bossStep h).1
  | worker w r => exact (hF.workerStep hQ ha h).1
  | spurious w =>
      obtain rfl := Option.some.inj h
      exact hF.spurious w

theorem Reachable.fine (h : Reachable E Smooth s) : Fine E s :=
  h.invariant_of (fun _ hr => Reachable.queue hr) fine_init
    fun _ _ _ hQ hF ha hs => hF.step hQ ha hs

theorem left_setWorker (E : Env) (s : State ω κ) (w : ω) (c : Worker κ) :
    (s.setWorker w c).left E + (s.workers w).left E = s.left E + c.left E := by
  have hsum := sum_step w (f := fun v => (s.workers v).left E)
    (g := fun v => ((s.setWorker w c).workers v).left E) fun v hv => by rw [setWorker_of_ne s c hv]
  simp only [setWorker_self] at hsum
  have hcalled : (s.setWorker w c).called E = s.called E := rfl
  have hqueued : (s.setWorker w c).queued E = s.queued E := rfl
  unfold State.left
  omega

/-- **Every step is paid for**: by the calls of `handler_get`, or as a spurious wakeup. -/
theorem pays_left (E : Env) :
    Pays (step E) Smooth (init ω κ) (State.left E) (State.credit E) Act.credit := by
  intro s a s' hr ha hs
  have hF := Reachable.fine hr
  unfold step at hs
  obtain ⟨_, hs⟩ := Option.ite_none_left_eq_some.mp hs
  cases a with
  | boss q =>
      have hpaid := (hF.bossStep hs).2
      simp only [Act.credit]
      omega
  | worker w r =>
      obtain ⟨_, hleft⟩ := hF.workerStep (Reachable.queue hr) ha hs
      obtain ⟨hb, hreq, ht, henq⟩ := workerStep_called hs
      have hsum := sum_step w (f := fun v => (s.workers v).left E)
        (g := fun v => (s'.workers v).left E) fun v hv => by rw [workerStep_frame hs v hv]
      simp only [Act.credit, State.left, State.called, State.credit, State.requested, hb, hreq, ht,
        henq]
      omega
  | spurious w =>
      obtain rfl := Option.some.inj hs
      have hwake := (s.workers w).left_wake (E := E)
      have hleft := left_setWorker E s w { s.workers w with pc := (s.workers w).pc.wake }
      have hcredit : (s.setWorker w { s.workers w with pc := (s.workers w).pc.wake }).credit E =
          s.credit E := rfl
      rw [hcredit]
      dsimp only [Act.credit] at hleft ⊢
      omega

omit [DecidableEq ω] in
theorem left_init (E : Env) : (init ω κ).left E = 3 * Fintype.card ω := by
  simp only [State.left, State.called, State.queued, init, Worker.init, Worker.left, Wait.left,
    List.map_nil, List.sum_nil]
  rw [Finset.sum_const_nat (m := 3) fun _ _ => rfl, Finset.card_univ]
  omega

/-- **The work is linear in the bytes requested**: for any number of workers, any requests and any
interleaving in which files are read and sent without failures, a run has at most three steps for
each worker, the price of each request, and four for each spurious wakeup. -/
theorem work_bounded (E : Env) (as : List (Act ω κ)) (s : State ω κ)
    (h : exec (step E) (init ω κ) as = some s) (hok : Along (step E) Smooth (init ω κ) as) :
    as.length ≤ 3 * Fintype.card ω + (s.requested.map (price ω E)).sum + (as.map Act.credit).sum := by
  have hle := (pays_left E).length_le .refl as h hok
  rw [left_init] at hle
  simp only [State.credit] at hle
  omega

/-- One request is answered, and the worker goes to sleep. -/
def answeredRun : List (Act Unit ℕ) :=
  List.replicate 6 (.boss ⟨0, str "/a"⟩) ++ List.replicate 8 (.worker () 7) ++
    [.worker () 4096, .worker () 7] ++ List.replicate 5 (.worker () 0)

def answeredEnd : State Unit ℕ :=
  (execOk (step oneFile) Smooth (init Unit ℕ) answeredRun).getD (init Unit ℕ)

theorem work_bounded_answered :
    answeredRun.length ≤ 3 * Fintype.card Unit + (answeredEnd.requested.map (price Unit oneFile)).sum +
      (answeredRun.map Act.credit).sum :=
  work_bounded oneFile answeredRun answeredEnd rfl (along_of_execOk answeredRun (by decide +kernel))

/-! ### Rest -/

/-- Nothing is left to do: every worker sleeps in front of an empty queue, or has returned. -/
structure Rest (E : Env) (s : State ω κ) : Prop where
  boss : s.boss = .idle
  free : s.workqlock = none
  workers : ∀ w, (s.workers w).pc = .waitTask .asleep ∨
    (s.workers w).pc = .returned ∧ ∃ t, (w, t) ∈ s.taken ∧ E.contentGet t.path < 0
  served : s.workq = [] ∨ ∀ w, (s.workers w).pc = .returned

omit [Fintype ω] in
/-- A worker that neither sleeps nor has returned can step, unless it waits for the mutex. -/
theorem workerStep_isSome (hc : (s.workers w).Fine E) (hQ : Queue s)
    (hasleep : (s.workers w).pc ≠ .waitTask .asleep) (hreturned : (s.workers w).pc ≠ .returned)
    (hlock : s.workqlock = none ∨ (s.workers w).pc.holds = true) :
    ∃ r, Moves (s.workers w) r ∧ (workerStep E s w r).isSome = true := by
  unfold Worker.Fine at hc
  unfold workerStep
  dsimp only
  cases hp : (s.workers w).pc with
  | returned => exact absurd hp hreturned
  | readError | readAbort => simp [hp] at hc
  | waitTask p =>
      refine ⟨0, by simp [Moves, hp], ?_⟩
      rw [hp] at hlock hasleep
      have hfree : s.workqlock.isNone = true ∨ p.holds = true :=
        hlock.imp_left Option.isNone_iff_eq_none.mpr
      simpa using Wait.step_isSome (fun h => hasleep (by rw [h])) hfree
  | pop =>
      refine ⟨0, by simp [Moves, hp], ?_⟩
      obtain ⟨t, q, hq⟩ := List.exists_cons_of_ne_nil (hQ.worker hp rfl)
      simp [hq]
  | unlock => exact ⟨0, by simp [Moves, hp], rfl⟩
  | contentGet =>
      simp only [hp] at hc
      obtain ⟨t, ht⟩ := hc
      exact ⟨0, by simp [Moves, hp], by simp [MtServer.jobStep, hp, ht]⟩
  | pread => exact ⟨1, by simp [Moves, hp], by simp [MtServer.jobStep, hp]⟩
  | send =>
      simp only [hp] at hc
      exact ⟨(s.workers w).readLen, ⟨by simp [hp], fun _ => ⟨hc.2.2.2, le_refl _⟩⟩,
        by simp [MtServer.jobStep, hp]⟩
  | lseek =>
      refine ⟨0, by simp [Moves, hp], ?_⟩
      simp [MtServer.jobStep, hp]
  | _ => exact ⟨0, by simp [Moves, hp], by simp [MtServer.jobStep, hp]⟩

omit [DecidableEq ω] [Fintype ω] in
/-- The accepting thread can finish its call, unless it waits for the mutex. -/
theorem bossStep_isSome (hlock : s.workqlock = none ∨ s.boss.holds = true) :
    (bossStep s q).isSome = true := by
  unfold bossStep
  cases hp : s.boss with
  | lock =>
      rw [hp] at hlock
      simp [hlock.resolve_right Bool.false_ne_true]
  | _ => rfl

omit [Fintype ω] in
/-- **No deadlock**: where nothing but a new request or a spurious wakeup can happen, the server is
at rest. -/
theorem Fine.rest_of_stuck [Nonempty κ] (hF : Fine E s) (hQ : Queue s) (hH : Handover s)
    (hstuck : Stuck (MtServer.step E) Quiet s) : Rest E s := by
  have halive := hH.alive
  have hboss : s.workqlock = none ∨ s.boss.holds = true → s.boss = .idle := by
    intro hlock
    by_contra hidle
    obtain ⟨k⟩ := ‹Nonempty κ›
    have hsome := bossStep_isSome (s := s) (q := ⟨k, []⟩) hlock
    have hnone := hstuck (.boss ⟨k, []⟩) hidle
    simp [MtServer.step, halive] at hnone
    simp [hnone] at hsome
  have hworker : ∀ w, s.workqlock = none ∨ (s.workers w).pc.holds = true →
      (s.workers w).pc = .waitTask .asleep ∨ (s.workers w).pc = .returned := by
    intro w hlock
    by_contra hp
    obtain ⟨hasleep, hreturned⟩ := not_or.mp hp
    obtain ⟨r, hr, hsome⟩ := workerStep_isSome (hF.workers w) hQ hasleep hreturned hlock
    have hnone := hstuck (.worker w r) hr
    simp [MtServer.step, halive] at hnone
    simp [hnone] at hsome
  -- the thread that held the mutex could go on
  have hfree : s.workqlock = none := by
    by_contra hheld
    obtain ⟨u, hu⟩ := Option.ne_none_iff_exists'.mp hheld
    have hholds := (hQ.lock u).mp hu
    cases u with
    | boss =>
        have hidle := hboss (.inr hholds)
        simp [State.holds, hidle, BossPc.holds] at hholds
    | worker v =>
        obtain hp | hp := hworker v (.inr hholds) <;>
          simp [State.holds, hp, WorkerPc.holds, Wait.holds] at hholds
  have hidle := hboss (.inl hfree)
  refine ⟨hidle, hfree, fun w => ?_, ?_⟩
  · refine (hworker w (.inl hfree)).imp_right fun hp => ⟨hp, ?_⟩
    have hfine := hF.workers w
    unfold Worker.Fine at hfine
    simp only [hp] at hfine
    obtain ⟨t, ht, hunknown⟩ := hfine
    exact ⟨t, hF.hired w t (by rw [hp]; rfl) ht, hunknown⟩
  · by_contra hserved
    obtain ⟨hne, hreturned⟩ := not_or.mp hserved
    push Not at hreturned
    obtain ⟨w, hw⟩ := hreturned
    have hasleep := (hworker w (.inl hfree)).resolve_right hw
    have howes := (hH.wakeup w hasleep).resolve_left hne
    rw [hidle] at howes
    cases howes

omit [Fintype ω] in
/-- At rest only a request or a spurious wakeup is possible. -/
theorem Rest.stuck (hR : Rest E s) : Stuck (MtServer.step E) Quiet s := by
  intro a ha
  cases a with
  | boss q => exact absurd hR.boss ha
  | spurious w => exact ha.elim
  | worker w r =>
      obtain hp | ⟨hp, _⟩ := hR.workers w <;>
        simp [MtServer.step, workerStep, MtServer.jobStep, hp, Wait.step]

omit [DecidableEq ω] [Fintype ω] in
theorem requested_of_bossStep (hidle : s.boss ≠ .idle) (h : bossStep s q = some s') :
    s'.requested = s.requested := by
  unfold bossStep at h
  cases hp : s.boss with
  | idle => exact absurd hp hidle
  | lock =>
      simp only [hp] at h
      obtain ⟨_, h⟩ := Option.ite_none_right_eq_some.mp h
      obtain rfl := Option.some.inj h
      simp [State.requested, hp]
  | _ =>
      simp only [hp, Option.some.injEq] at h
      subst h
      simp [State.requested, hp]

omit [Fintype ω] in
theorem requested_of_quiet {a : Act ω κ} (ha : Quiet s a) (h : step E s a = some s') :
    s'.requested = s.requested := by
  unfold step at h
  obtain ⟨_, h⟩ := Option.ite_none_left_eq_some.mp h
  cases a with
  | boss q => exact requested_of_bossStep ha h
  | worker w r =>
      obtain ⟨hb, hreq, ht, henq⟩ := workerStep_called h
      simp only [State.requested, hb, hreq, ht, henq]
  | spurious w => exact ha.elim

theorem lowers_left (h : Reachable E Smooth s) : Lowers (step E) Quiet s (State.left E) :=
  (pays_left E).lowers h
    (fun s a ha => ⟨ha.smooth, by cases a <;> first | rfl | exact ha.elim⟩)
    fun _ _ _ ha hs => by simp only [State.credit, requested_of_quiet ha hs]

/-- **Requests are served**: from every state of a run in which files are read and sent without
failures, and whatever the requests, a run without further requests and spurious wakeups is no
longer than `State.left`, it can stop exactly where the server is at rest, and it can be continued
until then; at rest every task requested has been taken, unless all workers have returned, each
because of a task for an unknown path. -/
theorem requests_served [Nonempty κ] (E : Env) (s : State ω κ) (h : Reachable E Smooth s) :
    (∀ as s', exec (step E) s as = some s' → Along (step E) Quiet s as →
      as.length ≤ s.left E ∧ ((∀ a, Quiet s' a → step E s' a = none) ↔ Rest E s') ∧
        (Rest E s' → s'.taken.map Prod.snd = s.requested ∨
          ∀ w, (s'.workers w).pc = .returned)) ∧
      ∃ as s', exec (step E) s as = some s' ∧ Along (step E) Quiet s as ∧ Rest E s' := by
  have hlowers := lowers_left h
  have hreach : ∀ {as s'}, exec (step E) s as = some s' → Along (step E) Quiet s as →
      Reachable E Smooth s' := by
    intro as s' has hok
    exact h.trans ((reach_of_along as has hok).imp fun _ _ _ ha => ha.smooth)
  have hrest : ∀ {s' : State ω κ}, Reachable E Smooth s' → Stuck (step E) Quiet s' → Rest E s' := by
    intro s' hr hstuck
    exact (Reachable.fine hr).rest_of_stuck (Reachable.queue hr) (Reachable.handover hr) hstuck
  constructor
  · intro as s' has hok
    have hr := hreach has hok
    refine ⟨?_, ⟨hrest hr, fun hR => hR.stuck⟩, fun hR => ?_⟩
    · have hle := hlowers.length_le .refl as has hok
      omega
    · refine hR.served.imp_left fun hempty => ?_
      have hconserved := (Reachable.handover hr).conserved
      have hrequested : s'.requested = s.requested :=
        (reach_of_along as has hok).invariant (I := fun t => t.requested = s.requested) rfl
          fun _ _ _ hI ha hs => (requested_of_quiet ha hs).trans hI
      rw [hempty, List.append_nil] at hconserved
      rw [hconserved, ← hrequested, State.requested, hR.boss, List.append_nil]
  · obtain ⟨as, s', has, hok, hstuck⟩ := hlowers.exists_stuck .refl
    exact ⟨as, s', has, hok, hrest (hreach has hok) hstuck⟩

theorem requests_served_answered :
    ∃ as s', exec (step oneFile) answeredEnd as = some s' ∧ Along (step oneFile) Quiet answeredEnd as ∧
      Rest oneFile s' :=
  (requests_served oneFile answeredEnd (reach_of_execOk answeredRun rfl)).2

end OsProjects.MtServer
