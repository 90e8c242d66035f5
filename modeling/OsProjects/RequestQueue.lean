import OsProjects.Guarded
import OsProjects.RequestHandover

/-! # The bounded request buffer

`mq_data_queue`, `steq_size` and `msgq_mutex` of `proj3/simplecached.c`, between the receive loop
of `main` and any number of workers.

* `Buffer` — the mutex guards the counter: outside of the critical sections it is the length of
  the queue and at most `MAX_CACHE_REQUEST_LEN`; inside it is off by one between the change of
  the queue and that of the counter.
* `Wakeups` — a thread that sleeps in front of work has a signal or broadcast coming.
* `request_queue` — both, and the order of the pointers, in every reachable state. -/

namespace OsProjects.Simplecached

open Monitor Transition

variable {ω : Type*} [DecidableEq ω] {s s' : State ω} {w : ω} {ok : Bool} {m : Option Msg}

/-! ### Critical sections -/

/-- `main` holds `msgq_mutex` at this point. -/
def MainPc.holds : MainPc → Bool
  | waitRoom w => w.holds
  | enqueue | increment | unlock => true
  | receive | broadcast => false

/-- The worker holds `msgq_mutex` at this point. -/
def WorkerPc.holds : WorkerPc → Bool
  | waitRequest w => w.holds
  | pop | decrement | unlock => true
  | _ => false

/-- The worker is between its signal and its next wait. -/
def WorkerPc.away : WorkerPc → Bool
  | get | shmOpen | ftruncate | mmap | serve | munmap => true
  | _ => false

def State.holds (s : State ω) : Thread ω → Bool
  | .main => s.main.holds
  | .worker w => (s.workers w).pc.holds

/-- The counter is the length of the queue, which fits the buffer. -/
def Counted (size : ℤ) (len : ℕ) : Prop := size = len ∧ size ≤ maxCacheRequestLen

/-- Counter and length while `main` is at this point of its critical section. -/
def MainPc.Crit (size : ℤ) (len : ℕ) : MainPc → Prop
  | waitRoom w => Counted size len ∧ (w = .sleep → size = maxCacheRequestLen)
  | enqueue => Counted size len ∧ size ≠ maxCacheRequestLen
  | increment => Counted (size + 1) len
  | _ => Counted size len

/-- Counter and length while a worker is at this point of its critical section. -/
def WorkerPc.Crit (size : ℤ) (len : ℕ) : WorkerPc → Prop
  | waitRequest w => Counted size len ∧ (w = .sleep → size = 0)
  | pop => Counted size len ∧ size ≠ 0
  | decrement => Counted size (len + 1)
  | _ => Counted size len

def State.Crit (s : State ω) : Thread ω → Prop
  | .main => s.main.Crit s.steqSize s.mqDataQueue.length
  | .worker w => (s.workers w).pc.Crit s.steqSize s.mqDataQueue.length

/-- `msgq_mutex` guards the counter and the queue. -/
def Buffer (s : State ω) : Prop :=
  Guarded s.msgqMutex s.holds (Counted s.steqSize s.mqDataQueue.length) s.Crit

@[simp] theorem MainPc.holds_wake (p : MainPc) : p.wake.holds = p.holds := by
  cases p <;> simp [wake, holds]

@[simp] theorem WorkerPc.holds_wake (p : WorkerPc) : p.wake.holds = p.holds := by
  cases p <;> simp [wake, holds]

theorem MainPc.Crit.wake {size : ℤ} {len : ℕ} {p : MainPc} (h : p.Crit size len) :
    p.wake.Crit size len := by
  cases p with
  | waitRoom w => exact ⟨h.1, fun hw => h.2 (Wait.eq_sleep_of_wake (by rw [hw]; rfl))⟩
  | _ => exact h

theorem WorkerPc.Crit.wake {size : ℤ} {len : ℕ} {p : WorkerPc} (h : p.Crit size len) :
    p.wake.Crit size len := by
  cases p with
  | waitRequest w => exact ⟨h.1, fun hw => h.2 (Wait.eq_sleep_of_wake (by rw [hw]; rfl))⟩
  | _ => exact h

/-! ### What a step of a worker does to the buffer -/

/-- Mutex, counter, queue and the point of `main`. -/
structure View (ω : Type*) where
  mutex : Option (Thread ω)
  size : ℤ
  queue : List ℕ
  main : MainPc

def State.view (s : State ω) : View ω := ⟨s.msgqMutex, s.steqSize, s.mqDataQueue, s.main⟩

theorem workerStep_view (h : workerStep s w ok = some s') :
    (∃ p op q, (s.workers w).pc = .waitRequest p ∧
      p.step .pthread s.msgqMutex.isNone (s.steqSize ≠ 0) = some (op, q) ∧
      (s'.workers w).pc = q.elim .pop .waitRequest ∧
      s'.view = ⟨op.apply (.worker w) s.msgqMutex, s.steqSize, s.mqDataQueue, s.main⟩) ∨
    ((s.workers w).pc = .pop ∧ s.mqDataQueue = [] ∧ s'.workers w = s.workers w ∧
      s'.view = s.view) ∨
    (∃ t q, (s.workers w).pc = .pop ∧ s.mqDataQueue = t :: q ∧
      (s'.workers w).pc = .decrement ∧ s'.view = ⟨s.msgqMutex, s.steqSize, q, s.main⟩) ∨
    ((s.workers w).pc = .decrement ∧ (s'.workers w).pc = .unlock ∧
      s'.view = ⟨s.msgqMutex, s.steqSize - 1, s.mqDataQueue, s.main⟩) ∨
    ((s.workers w).pc = .unlock ∧ (s'.workers w).pc = .signal ∧
      s'.view = ⟨none, s.steqSize, s.mqDataQueue, s.main⟩) ∨
    ((s.workers w).pc = .signal ∧ (s'.workers w).pc = .get ∧
      s'.view = ⟨s.msgqMutex, s.steqSize, s.mqDataQueue, s.main.wake⟩) ∨
    ((s.workers w).pc.away = true ∧
      ((s'.workers w).pc.away = true ∨ (s'.workers w).pc = .waitRequest .lock) ∧
      s'.view = s.view) := by
  unfold workerStep at h
  cases hp : (s.workers w).pc with
  | waitRequest p =>
      simp only [hp, Option.map_eq_some_iff] at h
      obtain ⟨⟨op, q⟩, hs, rfl⟩ := h
      exact .inl ⟨p, op, q, rfl, hs, by simp [State.setWorker], rfl⟩
  | pop =>
      simp only [hp] at h
      split at h <;> obtain rfl := Option.some.inj h
      · next hq => exact .inr (.inl ⟨rfl, hq, rfl, rfl⟩)
      · next t q hq => exact .inr (.inr (.inl ⟨t, q, rfl, hq, by simp [State.setWorker], rfl⟩))
  | decrement =>
      simp only [hp, Option.some.injEq] at h
      subst h
      exact .inr (.inr (.inr (.inl ⟨rfl, by simp [State.setWorker], rfl⟩)))
  | unlock =>
      simp only [hp, Option.some.injEq] at h
      subst h
      exact .inr (.inr (.inr (.inr (.inl ⟨rfl, by simp [State.setWorker], rfl⟩))))
  | signal =>
      simp only [hp, Option.some.injEq] at h
      subst h
      exact .inr (.inr (.inr (.inr (.inr (.inl ⟨rfl, by simp [State.setWorker], rfl⟩)))))
  | get | shmOpen | ftruncate =>
      simp only [hp, Option.some.injEq] at h
      subst h
      refine .inr (.inr (.inr (.inr (.inr (.inr ⟨rfl, .inl ?_, rfl⟩)))))
      cases ok <;> simp [State.use, State.setWorker, WorkerPc.away]
  | mmap | serve | munmap =>
      simp only [hp] at h
      refine .inr (.inr (.inr (.inr (.inr (.inr ?_)))))
      split at h <;> obtain rfl := Option.some.inj h <;>
        exact ⟨rfl, by simp [State.use, State.setWorker, WorkerPc.away], rfl⟩

/-! ### The counter -/

theorem WorkerPc.holds_of_away {p : WorkerPc} (h : p.away = true) : p.holds = false := by
  cases p with
  | waitRequest _ | pop | decrement | unlock | signal => cases h
  | _ => rfl

theorem WorkerPc.Crit.counted {size : ℤ} {len : ℕ} {p : WorkerPc} (h : p.Crit size len)
    (hp : p.holds = false) : Counted size len := by
  cases p with
  | waitRequest w => exact h.1
  | pop | decrement => cases hp
  | _ => exact h

omit [DecidableEq ω] in
/-- A worker in its critical section knows how counter and queue stand. -/
theorem Buffer.worker {p : WorkerPc} (hB : Buffer s) (hp : (s.workers w).pc = p)
    (hh : p.holds = true) : p.Crit s.steqSize s.mqDataQueue.length := by
  subst hp
  exact hB.inside (.worker w) hh

/-- The critical sections of the other threads after a step of worker `w`. -/
theorem holds_of_workerStep (h : workerStep s w ok = some s')
    (hmain : s'.main = s.main ∨ s'.main = s.main.wake) :
    ∀ u ≠ Thread.worker w, s'.holds u = s.holds u := by
  intro u hu
  cases u with
  | main => obtain hm | hm := hmain <;> simp [State.holds, hm]
  | worker v =>
      have hv : v ≠ w := by
        rintro rfl
        exact hu rfl
      simp only [State.holds, workerStep_frame h v hv]

/-- A step of a worker in its critical section. -/
theorem Buffer.worker_inside {p p' : WorkerPc} (hB : Buffer s) (h : workerStep s w ok = some s')
    (hmain : s'.main = s.main) (hp : (s.workers w).pc = p) (hp' : (s'.workers w).pc = p')
    (hh : p.holds = true) (hm : s'.msgqMutex = if p'.holds then s.msgqMutex else none)
    (hcrit : p.Crit s.steqSize s.mqDataQueue.length → p'.Crit s'.steqSize s'.mqDataQueue.length) :
    Buffer s' := by
  have hc := hcrit (hB.worker hp hh)
  subst hp hp'
  exact Guarded.inside_step hB (holds_of_workerStep h (.inl hmain)) hh hm (fun _ => hc)
    fun hw' => hc.counted hw'

/-- A step of a worker outside of its critical section. -/
theorem Buffer.worker_outside {p p' : WorkerPc} (hB : Buffer s) (h : workerStep s w ok = some s')
    (hmain : s'.main = s.main ∨ s'.main = s.main.wake) (hp : (s.workers w).pc = p)
    (hp' : (s'.workers w).pc = p') (hh : p.holds = false) (hh' : p'.holds = false)
    (hm : s'.msgqMutex = s.msgqMutex) (hsize : s'.steqSize = s.steqSize)
    (hq : s'.mqDataQueue = s.mqDataQueue) : Buffer s' := by
  subst hp hp'
  unfold Buffer at hB ⊢
  rw [hm, hsize, hq]
  apply hB.outside (holds_of_workerStep h hmain) hh hh' (fun hD => hD)
  intro u hu _ hc
  cases u with
  | main =>
      simp only [State.Crit, hsize, hq]
      obtain hm | hm := hmain <;> rw [hm]
      · exact hc
      · exact hc.wake
  | worker v =>
      have hv : v ≠ w := by
        rintro rfl
        exact hu rfl
      simp only [State.Crit, hsize, hq, workerStep_frame h v hv]
      exact hc

theorem Buffer.workerStep (hB : Buffer s) (h : workerStep s w ok = some s') : Buffer s' := by
  rcases workerStep_view h with ⟨p, op, q, hp, hs, hp', hv⟩ | ⟨hp, hq, _, _⟩ |
    ⟨t, q, hp, hq, hp', hv⟩ | ⟨hp, hp', hv⟩ | ⟨hp, hp', hv⟩ | ⟨hp, hp', hv⟩ | ⟨hp, hp', hv⟩
  · obtain ⟨hm, hsize, hqueue, hmain⟩ := View.mk.inj hv
    unfold Buffer at hB ⊢
    rw [hm, hsize, hqueue]
    refine hB.wait (holds_of_workerStep h (.inl hmain)) (by rw [State.holds, hp]; rfl) hs ?_
      (fun hD => hD) (fun _ hD => ?_) (fun hD => hD) fun hc => ?_
    · simp only [State.holds, hp']
      cases q <;> rfl
    · simp only [State.Crit, hp', hsize, hqueue]
      cases q with
      | none => exact ⟨hD, by simpa using Wait.ok_of_step_none hs⟩
      | some p' =>
          refine ⟨hD, fun hp' => ?_⟩
          subst hp'
          simpa using Wait.failed_of_step_sleep hs
    · simp only [State.Crit, hp] at hc
      exact hc.1
  · have hc := hB.worker hp rfl
    rw [hq] at hc
    exact absurd hc.1.1 hc.2
  · obtain ⟨hm, hsize, hqueue, hmain⟩ := View.mk.inj hv
    apply hB.worker_inside h hmain hp hp' rfl hm
    intro hc
    rw [hq] at hc
    rw [hsize, hqueue]
    exact hc.1
  · obtain ⟨hm, hsize, hqueue, hmain⟩ := View.mk.inj hv
    apply hB.worker_inside h hmain hp hp' rfl hm
    intro hc
    rw [hsize, hqueue]
    obtain ⟨hlen, hmax⟩ := hc
    exact ⟨by push_cast at hlen; omega, by omega⟩
  · obtain ⟨hm, hsize, hqueue, hmain⟩ := View.mk.inj hv
    apply hB.worker_inside h hmain hp hp' rfl hm
    intro hc
    rw [hsize, hqueue]
    exact hc
  · obtain ⟨hm, hsize, hqueue, hmain⟩ := View.mk.inj hv
    exact hB.worker_outside h (.inr hmain) hp hp' rfl rfl hm hsize hqueue
  · obtain ⟨hm, hsize, hqueue, hmain⟩ := View.mk.inj hv
    refine hB.worker_outside h (.inl hmain) rfl rfl (WorkerPc.holds_of_away hp) ?_ hm hsize hqueue
    obtain hp' | hp' := hp'
    · exact WorkerPc.holds_of_away hp'
    · rw [hp']
      rfl

omit [DecidableEq ω] in
/-- A step of `main` moves no worker, or wakes them all. -/
theorem mainStep_frame (h : mainStep s m = some s') :
    (∀ v, s'.workers v = s.workers v) ∨
      (s.main = .broadcast ∧ ∀ v, (s'.workers v).pc = (s.workers v).pc.wake) := by
  unfold mainStep at h
  cases hp : s.main with
  | receive =>
      simp only [hp] at h
      cases m <;> obtain rfl := Option.some.inj h <;> exact .inl fun _ => rfl
  | waitRoom p =>
      simp only [hp, Option.map_eq_some_iff] at h
      obtain ⟨_, _, rfl⟩ := h
      exact .inl fun _ => rfl
  | broadcast =>
      simp only [hp, Option.some.injEq] at h
      subst h
      exact .inr ⟨rfl, fun _ => rfl⟩
  | enqueue | increment | unlock =>
      simp only [hp, Option.some.injEq] at h
      subst h
      exact .inl fun _ => rfl

omit [DecidableEq ω] in
theorem holds_of_mainStep (h : mainStep s m = some s') : ∀ u ≠ Thread.main, s'.holds u = s.holds u := by
  intro u hu
  cases u with
  | main => exact absurd rfl hu
  | worker v => obtain hf | ⟨_, hf⟩ := mainStep_frame h <;> simp [State.holds, hf v]

/-- A step of `main` in its critical section. -/
theorem Buffer.main_inside {p : MainPc} (hB : Buffer s) (h : mainStep s m = some s')
    (hp : s.main = p) (hh : p.holds = true)
    (hm : s'.msgqMutex = if s'.main.holds then s.msgqMutex else none)
    (hcrit : p.Crit s.steqSize s.mqDataQueue.length → s'.main.Crit s'.steqSize s'.mqDataQueue.length)
    (hout : s'.main.holds = false → s'.main = .broadcast) : Buffer s' := by
  subst hp
  have hc := hcrit (hB.inside .main hh)
  apply Guarded.inside_step hB (holds_of_mainStep h) hh hm (fun _ => hc)
  intro hp'
  rw [hout hp'] at hc
  exact hc

/-- A step of `main` outside of its critical section. -/
theorem Buffer.main_outside {p : MainPc} (hB : Buffer s) (h : mainStep s m = some s')
    (hp : s.main = p) (hh : p.holds = false) (hh' : s'.main.holds = false)
    (hm : s'.msgqMutex = s.msgqMutex) (hsize : s'.steqSize = s.steqSize)
    (hq : s'.mqDataQueue = s.mqDataQueue) : Buffer s' := by
  subst hp
  unfold Buffer at hB ⊢
  rw [hm, hsize, hq]
  apply hB.outside (holds_of_mainStep h) hh hh' (fun hD => hD)
  intro u hu _ hc
  cases u with
  | main => exact absurd rfl hu
  | worker v =>
      simp only [State.Crit, hsize, hq]
      obtain hf | ⟨_, hf⟩ := mainStep_frame h <;> rw [hf v]
      · exact hc
      · exact hc.wake

theorem Buffer.mainStep (hB : Buffer s) (h : mainStep s m = some s') : Buffer s' := by
  have h' := h
  unfold Simplecached.mainStep at h
  cases hp : s.main with
  | receive =>
      simp only [hp] at h
      cases m <;> obtain rfl := Option.some.inj h <;>
        exact hB.main_outside h' hp rfl rfl rfl rfl rfl
  | waitRoom p =>
      simp only [hp, Option.map_eq_some_iff] at h
      obtain ⟨⟨op, q⟩, hs, rfl⟩ := h
      refine Guarded.wait hB (holds_of_mainStep h') (by rw [State.holds, hp]; rfl) hs
        (by cases q <;> rfl) (fun hD => hD) (fun _ hD => ?_) (fun hD => hD) fun hc => ?_
      · cases q with
        | none => exact ⟨hD, by simpa using Wait.ok_of_step_none hs⟩
        | some p' =>
            refine ⟨hD, fun hp' => ?_⟩
            subst hp'
            simpa using Wait.failed_of_step_sleep hs
      · simp only [State.Crit, hp] at hc
        exact hc.1
  | enqueue =>
      simp only [hp, Option.some.injEq] at h
      subst h
      refine hB.main_inside h' hp rfl rfl (fun hc => ?_) (by simp [MainPc.holds])
      simp only [MainPc.Crit, Counted] at hc
      simp only [MainPc.Crit, Counted, List.length_append, List.length_singleton]
      push_cast
      omega
  | increment =>
      simp only [hp, Option.some.injEq] at h
      subst h
      exact hB.main_inside h' hp rfl rfl (fun hc => hc) (by simp [MainPc.holds])
  | unlock =>
      simp only [hp, Option.some.injEq] at h
      subst h
      exact hB.main_inside h' hp rfl rfl (fun hc => hc) (fun _ => rfl)
  | broadcast =>
      simp only [hp, Option.some.injEq] at h
      subst h
      exact hB.main_outside h' hp rfl rfl rfl rfl rfl

theorem Buffer.step {a : Act ω} (hB : Buffer s) (h : step s a = some s') : Buffer s' := by
  unfold Simplecached.step at h
  split at h
  · cases h
  · cases a with
    | main m => exact hB.mainStep h
    | worker w ok => exact hB.workerStep h
    | spuriousMain =>
        obtain rfl := Option.some.inj h
        refine Guarded.congr hB (fun u => ?_) (fun hD => hD) fun u _ hc => ?_
        · cases u <;> simp [State.holds]
        · cases u with
          | main => exact MainPc.Crit.wake hc
          | worker v => exact hc
    | spuriousWorker w =>
        obtain rfl := Option.some.inj h
        have hpc : ∀ v, ((s.setWorker w { s.workers w with pc := (s.workers w).pc.wake }).workers v).pc =
            if v = w then (s.workers v).pc.wake else (s.workers v).pc := by
          intro v
          by_cases hv : v = w <;> simp [hv, State.setWorker]
        refine Guarded.congr hB (fun u => ?_) (fun hD => hD) fun u _ hc => ?_
        · cases u with
          | main => rfl
          | worker v =>
              simp only [State.holds, hpc]
              split <;> simp
        · cases u with
          | main => exact hc
          | worker v =>
              simp only [State.Crit, hpc]
              split
              · exact WorkerPc.Crit.wake hc
              · exact hc

omit [DecidableEq ω] in
theorem buffer_init : Buffer (init ω) where
  lock t := by cases t <;> simp [init, State.holds, MainPc.holds, WorkerPc.holds, Wait.holds]
  free _ := by simp [init, Counted, maxCacheRequestLen]
  inside t ht := by cases t <;> simp [init, State.holds, MainPc.holds, WorkerPc.holds, Wait.holds] at ht

theorem Reachable.buffer {ok : State ω → Act ω → Prop} (h : Reachable ok s) : Buffer s :=
  h.invariant buffer_init fun _ _ _ hB _ hs => hB.step hs

/-! ### Wakeups -/

/-- `main` has enqueued and has the broadcast still to send. -/
def MainPc.owesBroadcast : MainPc → Bool
  | increment | unlock | broadcast => true
  | _ => false

/-- The worker has popped and has the signal still to send. -/
def WorkerPc.owesSignal : WorkerPc → Bool
  | decrement | unlock | signal => true
  | _ => false

/-- A thread that sleeps in front of work has a wakeup coming. -/
structure Wakeups (s : State ω) : Prop where
  main : s.main = .waitRoom .asleep →
    (s.mqDataQueue.length : ℤ) = maxCacheRequestLen ∨ ∃ w, (s.workers w).pc.owesSignal = true
  worker : ∀ w, (s.workers w).pc = .waitRequest .asleep →
    s.mqDataQueue = [] ∨ s.main.owesBroadcast = true

@[simp] theorem MainPc.owesBroadcast_wake (p : MainPc) :
    p.wake.owesBroadcast = p.owesBroadcast := by
  cases p <;> rfl

@[simp] theorem WorkerPc.owesSignal_wake (p : WorkerPc) : p.wake.owesSignal = p.owesSignal := by
  cases p <;> rfl

theorem WorkerPc.owesSignal_of_away {p : WorkerPc} (h : p.away = true) : p.owesSignal = false := by
  cases p with
  | decrement | unlock | signal => cases h
  | _ => rfl

theorem MainPc.wake_ne_asleep (p : MainPc) : p.wake ≠ .waitRoom .asleep := by
  cases p with
  | waitRoom w => cases w <;> simp [wake, Wait.wake]
  | _ => simp [wake]

theorem WorkerPc.wake_ne_asleep (p : WorkerPc) : p.wake ≠ .waitRequest .asleep := by
  cases p with
  | waitRequest w => cases w <;> simp [wake, Wait.wake]
  | _ => simp [wake]

omit [DecidableEq ω] in
theorem Wakeups.mainStep (hW : Wakeups s) (hB : Buffer s) (h : mainStep s m = some s') :
    Wakeups s' := by
  obtain ⟨hmain, hworker⟩ := hW
  have hcrit := hB.inside .main
  simp only [State.holds, State.Crit] at hcrit
  unfold Simplecached.mainStep at h
  cases hp : s.main with
  | receive =>
      simp only [hp] at h hworker
      cases m <;> obtain rfl := Option.some.inj h
      · exact ⟨by simp, fun w hw => by simpa [hp] using hworker w hw⟩
      · exact ⟨by simp, fun w hw => by simpa [MainPc.owesBroadcast] using hworker w hw⟩
  | waitRoom p =>
      simp only [hp, Option.map_eq_some_iff] at h hworker hcrit
      obtain ⟨⟨op, q⟩, hs, rfl⟩ := h
      refine ⟨fun ha => ?_, fun w hw => ?_⟩
      · cases q with
        | none => cases ha
        | some p' =>
            obtain rfl : p' = .asleep := MainPc.waitRoom.inj ha
            obtain rfl := Wait.eq_sleep_of_step_asleep hs
            obtain ⟨⟨hlen, _⟩, hfull⟩ := hcrit rfl
            exact .inl (hlen.symm.trans (hfull rfl))
      · obtain hnil | hb := hworker w hw
        · exact .inl hnil
        · cases hb
  | enqueue =>
      simp only [hp, Option.some.injEq] at h
      subst h
      exact ⟨by simp, fun w hw => .inr rfl⟩
  | increment =>
      simp only [hp, Option.some.injEq] at h
      subst h
      exact ⟨by simp, fun w hw => .inr rfl⟩
  | unlock =>
      simp only [hp, Option.some.injEq] at h
      subst h
      exact ⟨by simp, fun w hw => .inr rfl⟩
  | broadcast =>
      simp only [hp, Option.some.injEq] at h
      subst h
      exact ⟨by simp, fun w hw => absurd hw (WorkerPc.wake_ne_asleep _)⟩

theorem Wakeups.workerStep (hW : Wakeups s) (hB : Buffer s) (h : workerStep s w ok = some s') :
    Wakeups s' := by
  have hframe := workerStep_frame h
  -- the others keep what they owe, so only what `w` owes has to be checked
  have hmain : s'.main = s.main → s'.mqDataQueue = s.mqDataQueue →
      ((s.workers w).pc.owesSignal = true → (s'.workers w).pc.owesSignal = true) →
      s'.main = .waitRoom .asleep → (s'.mqDataQueue.length : ℤ) = maxCacheRequestLen ∨
        ∃ v, (s'.workers v).pc.owesSignal = true := by
    intro hm hq hw ha
    rw [hm] at ha
    rw [hq]
    obtain hfull | ⟨v, hv⟩ := hW.main ha
    · exact .inl hfull
    · refine .inr ⟨v, ?_⟩
      rcases eq_or_ne v w with rfl | hvw
      · exact hw hv
      · rw [hframe v hvw]
        exact hv
  have hworker : s'.main.owesBroadcast = s.main.owesBroadcast →
      (s.mqDataQueue = [] → s'.mqDataQueue = []) →
      ((s'.workers w).pc = .waitRequest .asleep → s'.mqDataQueue = []) →
      ∀ v, (s'.workers v).pc = .waitRequest .asleep →
        s'.mqDataQueue = [] ∨ s'.main.owesBroadcast = true := by
    intro hm hq hw v hv
    rcases eq_or_ne v w with rfl | hvw
    · exact .inl (hw hv)
    · rw [hframe v hvw] at hv
      rw [hm]
      exact (hW.worker v hv).imp_left hq
  rcases workerStep_view h with ⟨p, op, q, hp, hs, hp', hv⟩ | ⟨hp, hq, hw, hv⟩ |
    ⟨t, q, hp, hq, hp', hv⟩ | ⟨hp, hp', hv⟩ | ⟨hp, hp', hv⟩ | ⟨hp, hp', hv⟩ | ⟨hp, hp', hv⟩ <;>
    obtain ⟨_, _, hqueue, hm⟩ := View.mk.inj hv
  · refine ⟨hmain hm hqueue (by rw [hp]; exact fun hf => absurd hf Bool.false_ne_true),
      hworker (by rw [hm]) (fun hn => hqueue.trans hn) fun ha => ?_⟩
    rw [hp'] at ha
    cases q with
    | none => cases ha
    | some p' =>
        obtain rfl : p' = .asleep := WorkerPc.waitRequest.inj ha
        obtain rfl := Wait.eq_sleep_of_step_asleep hs
        have hc := hB.worker hp rfl
        have hlen := hc.1.1.symm.trans (hc.2 rfl)
        rw [hqueue]
        exact List.length_eq_zero_iff.mp (by exact_mod_cast hlen)
  · have hc := hB.worker hp rfl
    rw [hq] at hc
    exact absurd hc.1.1 hc.2
  · refine ⟨fun _ => .inr ⟨w, by rw [hp']; rfl⟩, hworker (by rw [hm]) (fun hn => ?_) ?_⟩
    · rw [hq] at hn
      cases hn
    · rw [hp']
      simp
  · exact ⟨hmain hm hqueue (by rw [hp']; exact fun _ => rfl),
      hworker (by rw [hm]) (fun hn => hqueue.trans hn) (by rw [hp']; simp)⟩
  · exact ⟨hmain hm hqueue (by rw [hp']; exact fun _ => rfl),
      hworker (by rw [hm]) (fun hn => hqueue.trans hn) (by rw [hp']; simp)⟩
  · refine ⟨fun ha => absurd (hm.symm.trans ha) (MainPc.wake_ne_asleep _), ?_⟩
    exact hworker (by rw [hm]; simp) (fun hn => hqueue.trans hn) (by rw [hp']; simp)
  · refine ⟨hmain hm hqueue fun ho => ?_, hworker (by rw [hm]) (fun hn => hqueue.trans hn) fun ha => ?_⟩
    · rw [WorkerPc.owesSignal_of_away hp] at ho
      cases ho
    · rw [ha] at hp'
      obtain hp' | hp' := hp' <;> cases hp'

theorem Wakeups.step {a : Act ω} (hW : Wakeups s) (hB : Buffer s) (h : step s a = some s') :
    Wakeups s' := by
  unfold Simplecached.step at h
  split at h
  · cases h
  · cases a with
    | main m => exact hW.mainStep hB h
    | worker w ok => exact hW.workerStep hB h
    | spuriousMain =>
        obtain rfl := Option.some.inj h
        exact ⟨fun ha => absurd ha (MainPc.wake_ne_asleep _), fun w hw => by simpa using hW.worker w hw⟩
    | spuriousWorker w =>
        obtain rfl := Option.some.inj h
        refine ⟨fun ha => (hW.main ha).imp_right ?_, fun v hv => ?_⟩
        · rintro ⟨v, hv⟩
          refine ⟨v, ?_⟩
          rcases eq_or_ne v w with rfl | hvw
          · simpa using hv
          · rw [setWorker_of_ne s _ hvw]
            exact hv
        · rcases eq_or_ne v w with rfl | hvw
          · rw [setWorker_self] at hv
            exact absurd hv (WorkerPc.wake_ne_asleep _)
          · rw [setWorker_of_ne s _ hvw] at hv
            exact hW.worker v hv

omit [DecidableEq ω] in
theorem wakeups_init : Wakeups (init ω) where
  main h := by simp [init] at h
  worker w h := by simp [init] at h

theorem Reachable.wakeups {ok : State ω → Act ω → Prop} (h : Reachable ok s) : Wakeups s :=
  h.invariant_of (fun _ hr => Reachable.buffer hr) wakeups_init
    fun _ _ _ hB hW _ hs => hW.step hB hs

/-- **The bounded request buffer**, in every reachable state: the counter is the length of the
queue and within bounds outside of the critical sections; a worker about to pop finds a pointer;
the pointers popped are, in order, those enqueued first; `main` asleep with room in the buffer
has a signal coming, and a worker asleep with a pointer in the queue a broadcast. -/
theorem request_queue (s : State ω) (h : Reachable Any s) :
    (s.msgqMutex = none → s.steqSize = s.mqDataQueue.length ∧ 0 ≤ s.steqSize ∧
      s.steqSize ≤ maxCacheRequestLen) ∧
    (∀ w, (s.workers w).pc = .pop → s.mqDataQueue ≠ []) ∧
    s.taken.map Prod.snd ++ s.mqDataQueue ++ s.inHand = List.range s.received.length ∧
    (s.main = .waitRoom .asleep → (s.mqDataQueue.length : ℤ) ≠ maxCacheRequestLen →
      ∃ w, (s.workers w).pc.owesSignal = true) ∧
    ∀ w, (s.workers w).pc = .waitRequest .asleep → s.mqDataQueue ≠ [] →
      s.main.owesBroadcast = true := by
  have hB := Reachable.buffer h
  have hW := Reachable.wakeups h
  refine ⟨fun hn => ?_, fun w hw hq => ?_, (Reachable.handed h).conserved,
    fun ha hne => (hW.main ha).resolve_left hne, fun w hw hne => (hW.worker w hw).resolve_left hne⟩
  · obtain ⟨hlen, hmax⟩ := hB.free hn
    exact ⟨hlen, by omega, hmax⟩
  · have hc := hB.worker hw rfl
    rw [hq] at hc
    exact hc.2 hc.1.1

/-- The worker sleeps before the first request arrives; `main` has enqueued it. -/
def sleepingRun : List (Act Unit) :=
  List.replicate 3 (.worker () true) ++ .main (some requestA) :: List.replicate 3 (.main none)

def sleepingEnd : State Unit := (exec step (init Unit) sleepingRun).getD (init Unit)

theorem request_queue_sleeping :
    sleepingEnd.mqDataQueue = [0] ∧
      ∀ w, (sleepingEnd.workers w).pc = .waitRequest .asleep → sleepingEnd.mqDataQueue ≠ [] →
        sleepingEnd.main.owesBroadcast = true :=
  ⟨by decide +kernel, (request_queue sleepingEnd (reach_of_exec sleepingRun rfl)).2.2.2.2⟩

end OsProjects.Simplecached
