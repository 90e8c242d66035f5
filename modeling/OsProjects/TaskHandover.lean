import OsProjects.Decimal
import OsProjects.Guarded
import OsProjects.MtServer

/-! # Handing tasks to the workers

The queue of the multithreaded server between the accepting thread and any number of workers, in
every run and with wakeups that nobody sent.

* `Queue` — `workqlock` guards `workq`: a worker about to pop finds a task, a worker about to
  sleep has found none.
* `Handover` — the tasks popped and those queued are together the tasks enqueued, in order; a
  worker that sleeps although there is a task has a broadcast coming.
* `task_handover` — both, for every reachable state. -/

namespace OsProjects.MtServer

open Monitor Transition

variable {ω κ : Type*} [DecidableEq ω] {E : Env} {s s' : State ω κ} {w : ω} {r : ℤ} {q : Task κ}

/-! ### Critical sections -/

/-- The accepting thread holds `workqlock`. -/
def BossPc.holds : BossPc → Bool
  | malloc | enqueue | unlock => true
  | idle | lock | broadcast => false

/-- The worker holds `workqlock`. -/
def WorkerPc.holds : WorkerPc → Bool
  | waitTask w => w.holds
  | pop | unlock => true
  | _ => false

def State.holds (s : State ω κ) : Thread ω → Bool
  | .boss => s.boss.holds
  | .worker w => (s.workers w).pc.holds

/-- What a worker at this point has seen of the queue. -/
def WorkerPc.Crit (workq : List (Task κ)) : WorkerPc → Prop
  | waitTask w => w = .sleep → workq = []
  | pop => workq ≠ []
  | _ => True

def State.Crit (s : State ω κ) : Thread ω → Prop
  | .boss => True
  | .worker w => (s.workers w).pc.Crit s.workq

/-- `workqlock` guards `workq`. -/
def Queue (s : State ω κ) : Prop := Guarded s.workqlock s.holds True s.Crit

@[simp] theorem WorkerPc.holds_wake (p : WorkerPc) : p.wake.holds = p.holds := by
  cases p <;> simp [wake, holds]

theorem WorkerPc.Crit.wake {workq : List (Task κ)} {p : WorkerPc} (h : p.Crit workq) :
    p.wake.Crit workq := by
  cases p with
  | waitTask w => exact fun hw => h (Wait.eq_sleep_of_wake (by rw [hw]; rfl))
  | _ => exact h

theorem WorkerPc.wake_ne_asleep (p : WorkerPc) : p.wake ≠ .waitTask .asleep := by
  cases p with
  | waitTask w => cases w <;> simp [wake, Wait.wake]
  | _ => simp [wake]

@[simp] theorem setWorker_self (s : State ω κ) (w : ω) (c : Worker κ) :
    (s.setWorker w c).workers w = c := by
  simp [State.setWorker]

theorem setWorker_of_ne (s : State ω κ) (c : Worker κ) {v w : ω} (h : v ≠ w) :
    (s.setWorker w c).workers v = s.workers v := by
  simp [State.setWorker, h]

/-! ### What a step does to the queue -/

/-- The worker answers a task, or has returned. -/
def WorkerPc.busy : WorkerPc → Bool
  | waitTask _ | pop | unlock => false
  | _ => true

theorem WorkerPc.holds_of_busy {p : WorkerPc} (h : p.busy = true) : p.holds = false := by
  cases p with
  | waitTask _ | pop | unlock => cases h
  | _ => rfl

/-- A worker that answers a task goes on with it, or is done and waits for the next. -/
theorem busy_of_jobStep {c : Worker κ} {j : Worker κ × Option ℕ} (h : jobStep E c r = some j) :
    c.pc.busy = true ∧ (j.1.pc.busy = true ∨ j.1.pc = .waitTask .lock) := by
  unfold jobStep at h
  cases hp : c.pc with
  | waitTask _ | pop | unlock | returned => simp [hp] at h
  | contentGet =>
      simp only [hp, Option.map_eq_some_iff] at h
      obtain ⟨t, _, rfl⟩ := h
      refine ⟨rfl, .inl ?_⟩
      split <;> rfl
  | lseek =>
      simp only [hp] at h
      split at h <;> obtain rfl := Option.some.inj h <;> exact ⟨rfl, .inl rfl⟩
  | copy =>
      simp only [hp, Option.some.injEq] at h
      subst h
      by_cases hlt : c.bytesTransferred < c.fileLen
      · exact ⟨rfl, .inl (by simp [hlt, WorkerPc.busy])⟩
      · exact ⟨rfl, .inr (by simp [hlt])⟩
  | pread | send =>
      simp only [hp, Option.some.injEq] at h
      subst h
      refine ⟨rfl, .inl ?_⟩
      dsimp only
      split <;> rfl
  | _ =>
      simp only [hp, Option.some.injEq] at h
      subst h
      exact ⟨rfl, .inl rfl⟩

/-- The queue and what goes with it. -/
structure View (ω κ : Type*) where
  workq : List (Task κ)
  lock : Option (Thread ω)
  boss : BossPc
  enqueued : List (Task κ)
  taken : List (ω × Task κ)
  exited : Bool

def State.view (s : State ω κ) : View ω κ :=
  ⟨s.workq, s.workqlock, s.boss, s.enqueued, s.taken, s.exited⟩

theorem workerStep_frame (h : workerStep E s w r = some s') : ∀ v ≠ w, s'.workers v = s.workers v := by
  intro v hv
  unfold workerStep at h
  cases hp : (s.workers w).pc with
  | waitTask p =>
      simp only [hp, Option.map_eq_some_iff] at h
      obtain ⟨_, _, rfl⟩ := h
      exact setWorker_of_ne s _ hv
  | pop =>
      simp only [hp] at h
      split at h <;> obtain rfl := Option.some.inj h
      · rfl
      · exact setWorker_of_ne s _ hv
  | unlock =>
      simp only [hp, Option.some.injEq] at h
      subst h
      exact setWorker_of_ne s _ hv
  | _ =>
      simp only [hp, Option.map_eq_some_iff] at h
      obtain ⟨_, _, rfl⟩ := h
      exact setWorker_of_ne s _ hv

theorem workerStep_view (h : workerStep E s w r = some s') :
    (∃ p op n, (s.workers w).pc = .waitTask p ∧
      p.step .pthread s.workqlock.isNone (!s.workq.isEmpty) = some (op, n) ∧
      (s'.workers w).pc = n.elim .pop .waitTask ∧
      s'.view = ⟨s.workq, op.apply (.worker w) s.workqlock, s.boss, s.enqueued, s.taken, s.exited⟩) ∨
    ((s.workers w).pc = .pop ∧ s.workq = []) ∨
    (∃ t q, (s.workers w).pc = .pop ∧ s.workq = t :: q ∧ (s'.workers w).pc = .unlock ∧
      s'.view = ⟨q, s.workqlock, s.boss, s.enqueued, s.taken ++ [(w, t)], s.exited⟩) ∨
    ((s.workers w).pc = .unlock ∧ (s'.workers w).pc = .contentGet ∧
      s'.view = ⟨s.workq, none, s.boss, s.enqueued, s.taken, s.exited⟩) ∨
    ((s.workers w).pc.busy = true ∧
      ((s'.workers w).pc.busy = true ∨ (s'.workers w).pc = .waitTask .lock) ∧
      s'.view = s.view) := by
  unfold workerStep at h
  cases hp : (s.workers w).pc with
  | waitTask p =>
      simp only [hp, Option.map_eq_some_iff] at h
      obtain ⟨⟨op, n⟩, hs, rfl⟩ := h
      exact .inl ⟨p, op, n, rfl, hs, by simp [State.setWorker], rfl⟩
  | pop =>
      simp only [hp] at h
      split at h <;> obtain rfl := Option.some.inj h
      · next hq => exact .inr (.inl ⟨rfl, hq⟩)
      · next t q hq => exact .inr (.inr (.inl ⟨t, q, rfl, hq, by simp [State.setWorker], rfl⟩))
  | unlock =>
      simp only [hp, Option.some.injEq] at h
      subst h
      exact .inr (.inr (.inr (.inl ⟨rfl, by simp [State.setWorker], rfl⟩)))
  | _ =>
      simp only [hp, Option.map_eq_some_iff] at h
      obtain ⟨j, hj, rfl⟩ := h
      refine .inr (.inr (.inr (.inr ⟨rfl, ?_, rfl⟩)))
      simpa [State.setWorker] using (busy_of_jobStep hj).2

omit [DecidableEq ω] in
/-- A step of the accepting thread moves no worker, or wakes them all. -/
theorem bossStep_frame (h : bossStep s q = some s') :
    (∀ v, s'.workers v = s.workers v) ∨
      (s.boss = .broadcast ∧ ∀ v, (s'.workers v).pc = (s.workers v).pc.wake) := by
  unfold bossStep at h
  cases hp : s.boss with
  | lock =>
      simp only [hp] at h
      obtain ⟨_, h⟩ := Option.ite_none_right_eq_some.mp h
      obtain rfl := Option.some.inj h
      exact .inl fun _ => rfl
  | broadcast =>
      simp only [hp, Option.some.injEq] at h
      subst h
      exact .inr ⟨rfl, fun _ => rfl⟩
  | _ =>
      simp only [hp, Option.some.injEq] at h
      subst h
      exact .inl fun _ => rfl

/-! ### The queue is guarded -/

omit [DecidableEq ω] in
/-- A worker in its critical section knows whether there is a task. -/
theorem Queue.worker {p : WorkerPc} (hQ : Queue s) (hp : (s.workers w).pc = p)
    (hh : p.holds = true) : p.Crit s.workq := by
  subst hp
  exact hQ.inside (.worker w) hh

/-- The critical sections of the other threads after a step of worker `w`. -/
theorem holds_of_workerStep (h : workerStep E s w r = some s') (hb : s'.boss = s.boss) :
    ∀ u ≠ Thread.worker w, s'.holds u = s.holds u := by
  intro u hu
  cases u with
  | boss => simp only [State.holds, hb]
  | worker v =>
      have hv : v ≠ w := by
        rintro rfl
        exact hu rfl
      simp only [State.holds, workerStep_frame h v hv]

/-- A step by which a worker in its critical section gets to a point where nothing is asked. -/
theorem Queue.worker_inside {p p' : WorkerPc} (hQ : Queue s) (h : workerStep E s w r = some s')
    (hb : s'.boss = s.boss) (hp : (s.workers w).pc = p) (hp' : (s'.workers w).pc = p')
    (hh : p.holds = true) (hlock : s'.workqlock = if p'.holds then s.workqlock else none)
    (hcrit : p'.Crit s'.workq) : Queue s' := by
  subst hp hp'
  exact Guarded.inside_step hQ (holds_of_workerStep h hb) hh hlock (fun _ => hcrit) fun _ => trivial

theorem Queue.workerStep (hQ : Queue s) (h : workerStep E s w r = some s') : Queue s' := by
  rcases workerStep_view h with ⟨p, op, n, hp, hs, hp', hv⟩ | ⟨hp, hq⟩ | ⟨t, q, hp, hq, hp', hv⟩ |
    ⟨hp, hp', hv⟩ | ⟨hp, hp', hv⟩
  · obtain ⟨hworkq, hlock, hb, _⟩ := View.mk.inj hv
    unfold Queue
    rw [hlock]
    refine Guarded.wait hQ (holds_of_workerStep h hb) (by rw [State.holds, hp]; rfl) hs ?_
      (fun hD => hD) (fun _ _ => ?_) (fun hD => hD) fun _ => trivial
    · simp only [State.holds, hp']
      cases n <;> rfl
    · simp only [State.Crit, hp', hworkq]
      cases n with
      | none => simpa [WorkerPc.Crit] using Wait.ok_of_step_none hs
      | some p' =>
          rintro rfl
          simpa using Wait.failed_of_step_sleep hs
  · exact absurd hq (hQ.worker hp rfl)
  · obtain ⟨_, hlock, hb, _⟩ := View.mk.inj hv
    exact hQ.worker_inside h hb hp hp' rfl hlock trivial
  · obtain ⟨_, hlock, hb, _⟩ := View.mk.inj hv
    exact hQ.worker_inside h hb hp hp' rfl hlock trivial
  · obtain ⟨hworkq, hlock, hb, _⟩ := View.mk.inj hv
    have hout : (s'.workers w).pc.holds = false := by
      obtain hp' | hp' := hp'
      · exact WorkerPc.holds_of_busy hp'
      · rw [hp']
        rfl
    unfold Queue
    rw [hlock]
    refine Guarded.outside hQ (holds_of_workerStep h hb) (WorkerPc.holds_of_busy hp) hout
      (fun hD => hD) fun u hu _ hc => ?_
    cases u with
    | boss => trivial
    | worker v =>
        have hv : v ≠ w := by
          rintro rfl
          exact hu rfl
        simp only [State.Crit, hworkq, workerStep_frame h v hv]
        exact hc

omit [DecidableEq ω] in
theorem holds_of_bossStep (h : bossStep s q = some s') :
    ∀ u ≠ Thread.boss, s'.holds u = s.holds u := by
  intro u hu
  cases u with
  | boss => exact absurd rfl hu
  | worker v => obtain hf | ⟨_, hf⟩ := bossStep_frame h <;> simp [State.holds, hf v]

theorem Queue.bossStep (hQ : Queue s) (h : bossStep s q = some s') : Queue s' := by
  have hframe := holds_of_bossStep h
  have hworkers := bossStep_frame h
  unfold MtServer.bossStep at h
  cases hp : s.boss with
  | idle | broadcast =>
      simp only [hp, Option.some.injEq] at h
      subst h
      refine Guarded.outside hQ hframe (by rw [State.holds, hp]; rfl) rfl (fun hD => hD)
        fun u hu _ hc => ?_
      cases u with
      | boss => trivial
      | worker v =>
          first
            | exact hc
            | exact WorkerPc.Crit.wake hc
  | lock =>
      simp only [hp] at h
      obtain ⟨hn, h⟩ := Option.ite_none_right_eq_some.mp h
      obtain rfl := Option.some.inj h
      have hn := Option.isNone_iff_eq_none.mp hn
      unfold Queue at hQ
      rw [hn] at hQ
      exact Guarded.take hQ hframe rfl fun _ => trivial
  | malloc | enqueue | unlock =>
      simp only [hp, Option.some.injEq] at h
      subst h
      exact Guarded.inside_step hQ hframe (by rw [State.holds, hp]; rfl) rfl (fun _ => trivial)
        fun _ => trivial

/-- One thread wakes without a broadcast. -/
theorem Queue.spurious (hQ : Queue s) (w : ω) :
    Queue (s.setWorker w { s.workers w with pc := (s.workers w).pc.wake }) := by
  have hpc : ∀ v, ((s.setWorker w { s.workers w with pc := (s.workers w).pc.wake }).workers v).pc =
      if v = w then (s.workers v).pc.wake else (s.workers v).pc := by
    intro v
    by_cases hv : v = w <;> simp [hv, State.setWorker]
  refine Guarded.congr hQ (fun u => ?_) (fun hD => hD) fun u _ hc => ?_
  · cases u with
    | boss => rfl
    | worker v =>
        simp only [State.holds, hpc]
        split <;> simp
  · cases u with
    | boss => trivial
    | worker v =>
        simp only [State.Crit, hpc]
        split
        · exact WorkerPc.Crit.wake hc
        · exact hc

theorem Queue.step {a : Act ω κ} (hQ : Queue s) (h : step E s a = some s') : Queue s' := by
  unfold MtServer.step at h
  split at h
  · cases h
  · cases a with
    | boss q => exact hQ.bossStep h
    | worker w r => exact hQ.workerStep h
    | spurious w =>
        obtain rfl := Option.some.inj h
        exact hQ.spurious w

omit [DecidableEq ω] in
theorem queue_init : Queue (init ω κ) where
  lock t := by cases t <;> simp [init, State.holds, BossPc.holds, Worker.init, WorkerPc.holds, Wait.holds]
  free _ := trivial
  inside t ht := by
    cases t <;> simp [init, State.holds, BossPc.holds, Worker.init, WorkerPc.holds, Wait.holds] at ht

/-! ### Tasks and wakeups -/

/-- The accepting thread has enqueued a task and has the broadcast still to send. -/
def BossPc.owesBroadcast : BossPc → Bool
  | unlock | broadcast => true
  | _ => false

/-- Tasks are popped in the order in which they were enqueued, none is lost, and a worker that
sleeps in front of one will be woken. -/
structure Handover (s : State ω κ) : Prop where
  alive : s.exited = false
  conserved : s.taken.map Prod.snd ++ s.workq = s.enqueued
  wakeup : ∀ w, (s.workers w).pc = .waitTask .asleep → s.workq = [] ∨ s.boss.owesBroadcast = true

omit [DecidableEq ω] in
theorem handover_init : Handover (init ω κ) where
  alive := rfl
  conserved := rfl
  wakeup w h := by simp [init, Worker.init] at h

theorem Handover.workerStep (hH : Handover s) (hQ : Queue s) (h : workerStep E s w r = some s') :
    Handover s' := by
  obtain ⟨halive, hcons, hwake⟩ := hH
  have hframe := workerStep_frame h
  -- every other worker is woken as before, so only `w` and the queue count
  have hwakeup : s'.boss = s.boss → (s.workq = [] → s'.workq = []) →
      ((s'.workers w).pc = .waitTask .asleep → s'.workq = []) →
      ∀ v, (s'.workers v).pc = .waitTask .asleep → s'.workq = [] ∨ s'.boss.owesBroadcast = true := by
    intro hb hq hw v hv
    rcases eq_or_ne v w with rfl | hvw
    · exact .inl (hw hv)
    · rw [hframe v hvw] at hv
      rw [hb]
      exact (hwake v hv).imp_left hq
  rcases workerStep_view h with ⟨p, op, n, hp, hs, hp', hv⟩ | ⟨hp, hq⟩ | ⟨t, q, hp, hq, hp', hv⟩ |
    ⟨hp, hp', hv⟩ | ⟨hp, hp', hv⟩
  · obtain ⟨hworkq, _, hb, henq, htaken, hex⟩ := View.mk.inj hv
    refine ⟨hex.trans halive, by rw [hworkq, henq, htaken]; exact hcons,
      hwakeup hb (fun hn => hworkq.trans hn) fun ha => ?_⟩
    rw [hp'] at ha
    cases n with
    | none => cases ha
    | some p' =>
        obtain rfl : p' = .asleep := WorkerPc.waitTask.inj ha
        obtain rfl := Wait.eq_sleep_of_step_asleep hs
        exact hworkq.trans (hQ.worker hp rfl rfl)
  · exact absurd hq (hQ.worker hp rfl)
  · obtain ⟨hworkq, _, hb, henq, htaken, hex⟩ := View.mk.inj hv
    refine ⟨hex.trans halive, ?_, hwakeup hb (fun hn => ?_) (by rw [hp']; simp)⟩
    · rw [hworkq, henq, htaken, ← hcons, hq]
      simp
    · rw [hq] at hn
      cases hn
  · obtain ⟨hworkq, _, hb, henq, htaken, hex⟩ := View.mk.inj hv
    exact ⟨hex.trans halive, by rw [hworkq, henq, htaken]; exact hcons,
      hwakeup hb (fun hn => hworkq.trans hn) (by rw [hp']; simp)⟩
  · obtain ⟨hworkq, _, hb, henq, htaken, hex⟩ := View.mk.inj hv
    refine ⟨hex.trans halive, by rw [hworkq, henq, htaken]; exact hcons,
      hwakeup hb (fun hn => hworkq.trans hn) fun ha => ?_⟩
    rw [ha] at hp'
    obtain hp' | hp' := hp' <;> cases hp'

omit [DecidableEq ω] in
theorem Handover.bossStep (hH : Handover s) (h : bossStep s q = some s') : Handover s' := by
  obtain ⟨halive, hcons, hwake⟩ := hH
  unfold MtServer.bossStep at h
  cases hp : s.boss with
  | lock =>
      simp only [hp] at h hwake
      obtain ⟨_, h⟩ := Option.ite_none_right_eq_some.mp h
      obtain rfl := Option.some.inj h
      exact ⟨halive, hcons, fun w hw => .inl ((hwake w hw).resolve_right Bool.false_ne_true)⟩
  | idle | malloc =>
      simp only [hp, Option.some.injEq] at h hwake
      subst h
      exact ⟨halive, hcons, fun w hw => .inl ((hwake w hw).resolve_right Bool.false_ne_true)⟩
  | enqueue =>
      simp only [hp, Option.some.injEq] at h
      subst h
      refine ⟨halive, ?_, fun _ _ => .inr rfl⟩
      rw [← hcons, List.append_assoc]
  | unlock =>
      simp only [hp, Option.some.injEq] at h
      subst h
      exact ⟨halive, hcons, fun _ _ => .inr rfl⟩
  | broadcast =>
      simp only [hp, Option.some.injEq] at h
      subst h
      exact ⟨halive, hcons, fun w hw => absurd hw (WorkerPc.wake_ne_asleep _)⟩

theorem Handover.step {a : Act ω κ} (hH : Handover s) (hQ : Queue s) (h : step E s a = some s') :
    Handover s' := by
  unfold MtServer.step at h
  split at h
  · cases h
  · cases a with
    | boss q => exact hH.bossStep h
    | worker w r => exact hH.workerStep hQ h
    | spurious w =>
        obtain rfl := Option.some.inj h
        refine ⟨hH.alive, hH.conserved, fun v hv => ?_⟩
        rcases eq_or_ne v w with rfl | hvw
        · rw [setWorker_self] at hv
          exact absurd hv (WorkerPc.wake_ne_asleep _)
        · rw [setWorker_of_ne s _ hvw] at hv
          exact hH.wakeup v hv

theorem Reachable.queue {ok : State ω κ → Act ω κ → Prop} (h : Reachable E ok s) : Queue s :=
  h.invariant queue_init fun _ _ _ hQ _ hs => hQ.step hs

theorem Reachable.handover {ok : State ω κ → Act ω κ → Prop} (h : Reachable E ok s) : Handover s :=
  h.invariant_of (fun _ hr => Reachable.queue hr) handover_init
    fun _ _ _ hQ hH _ hs => hH.step hQ hs

/-- **Tasks are handed over exactly once, and no wakeup is lost**, in every reachable state: the
tasks popped, in order, and those queued are together the tasks enqueued; a worker about to pop
finds a task, and no pop has ended the process; a worker asleep in front of a task has a broadcast
coming. -/
theorem task_handover (E : Env) (s : State ω κ) (h : Reachable E Any s) :
    s.taken.map Prod.snd ++ s.workq = s.enqueued ∧
    ((∀ w, (s.workers w).pc = .pop → s.workq ≠ []) ∧ s.exited = false) ∧
    ∀ w, (s.workers w).pc = .waitTask .asleep → s.workq ≠ [] → s.boss.owesBroadcast = true := by
  have hQ := Reachable.queue h
  obtain ⟨halive, hcons, hwake⟩ := Reachable.handover h
  exact ⟨hcons, ⟨fun w hw => hQ.worker hw rfl, halive⟩,
    fun w hw hne => (hwake w hw).resolve_left hne⟩

/-- One file, found under one path. -/
def oneFile : Env where
  contentGet p := if p = str "/a" then 3 else -1
  contents _ := str "content"

/-- The worker sleeps before the first request arrives; the request has been enqueued. -/
def sleepingRun : List (Act Unit ℕ) :=
  List.replicate 3 (.worker () 0) ++ List.replicate 5 (.boss ⟨0, str "/a"⟩)

def sleepingEnd : State Unit ℕ :=
  (exec (step oneFile) (init Unit ℕ) sleepingRun).getD (init Unit ℕ)

theorem task_handover_sleeping :
    sleepingEnd.workq = [⟨0, str "/a"⟩] ∧
      ∀ w, (sleepingEnd.workers w).pc = .waitTask .asleep → sleepingEnd.workq ≠ [] →
        sleepingEnd.boss.owesBroadcast = true :=
  ⟨by decide +kernel, (task_handover oneFile sleepingEnd (reach_of_exec sleepingRun rfl)).2.2⟩

end OsProjects.MtServer
