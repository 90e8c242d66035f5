import OsProjects.TaskHandover

/-! # The pool of workers

A thread of `worker_main` leaves its loop when `content_get` does not know a path
(`returned`), and it stays in the loop that copies a file when a failed `gfs_send` takes
`bytes_transferred` below zero, because `pread` then fails too.  In a run without either
(`Sound`), no worker is lost.

* `Worker.Ok.done` — a worker with a task can finish it.
* `pool_kept` — in every state of such a run no worker has returned, every worker can come back
  to its waiting loop, and the first task of the queue can be taken.
* `pool_shrinks` — one unknown path costs a worker. -/

namespace OsProjects.MtServer

open Monitor Transition

variable {ω κ : Type*} [DecidableEq ω] {E : Env} {s s' : State ω κ} {w : ω} {r : ℤ} {q : Task κ}
  {c c' : Worker κ} {j : Worker κ × Option ℕ}

/-- A result of `gfs_send` that leaves the count of the bytes sent at zero or above. -/
def SendOk (c : Worker κ) (r : ℤ) : Prop := c.pc = .send → 0 ≤ c.bytesTransferred + r

instance (c : Worker κ) (r : ℤ) : Decidable (SendOk c r) := inferInstanceAs (Decidable (_ → _))

/-- Requests are for known paths, and failed sends are not counted below zero. -/
def Sound (E : Env) (s : State ω κ) : Act ω κ → Prop
  | .boss q => s.boss = .idle → 0 ≤ E.contentGet q.path
  | .worker w r => SendOk (s.workers w) r
  | .spurious _ => True

instance (E : Env) (s : State ω κ) : (a : Act ω κ) → Decidable (Sound E s a)
  | .boss _ => inferInstanceAs (Decidable (_ → _))
  | .worker w r => inferInstanceAs (Decidable (SendOk (s.workers w) r))
  | .spurious _ => isTrue trivial

/-- Steps without spurious wakeups, with which the server goes on. -/
def Prompt (E : Env) (s : State ω κ) (a : Act ω κ) : Prop := Sound E s a ∧ ∀ w, a ≠ .spurious w

/-! ### A worker and its task -/

/-- What a worker at this point knows of its task in a sound run. -/
def Worker.Ok (E : Env) (c : Worker κ) : Prop :=
  match c.pc with
  | .waitTask _ | .pop | .lseek => True
  | .unlock | .contentGet => ∃ t, c.job = some t ∧ 0 ≤ E.contentGet t.path
  | .sendNotFound | .returned => False
  | .sendOk => c.fileLen ≤ (E.contents c.fildes).length
  | .copy => 0 ≤ c.bytesTransferred ∧ c.fileLen ≤ (E.contents c.fildes).length
  | .pread | .readError | .readAbort | .send =>
      0 ≤ c.bytesTransferred ∧ c.bytesTransferred < c.fileLen ∧
        c.fileLen ≤ (E.contents c.fildes).length
  | .writeError | .writeAbort | .advance =>
      0 ≤ c.bytesTransferred + c.writeLen ∧ c.fileLen ≤ (E.contents c.fildes).length

theorem Worker.Ok.jobStep (hc : c.Ok E) (hr : SendOk c r) (h : jobStep E c r = some j) :
    j.1.Ok E := by
  unfold MtServer.jobStep at h
  unfold Worker.Ok at hc
  cases hp : c.pc with
  | waitTask _ | pop | unlock | returned => simp [hp] at h
  | sendNotFound => simp [hp] at hc
  | contentGet =>
      simp only [hp, Option.map_eq_some_iff] at h hc
      obtain ⟨t, ht, rfl⟩ := h
      obtain ⟨t', ht', hknown⟩ := hc
      obtain rfl := Option.some.inj (ht.symm.trans ht')
      rw [if_neg (by omega)]
      trivial
  | lseek =>
      simp only [hp] at h
      split at h <;> obtain rfl := Option.some.inj h
      · show (-1 : ℤ) ≤ _
        omega
      · exact le_refl _
  | sendOk =>
      simp only [hp, Option.some.injEq] at h hc
      subst h
      exact ⟨le_refl 0, hc⟩
  | copy =>
      simp only [hp, Option.some.injEq] at h hc
      subst h
      by_cases hlt : c.bytesTransferred < c.fileLen
      · simpa [Worker.Ok, hlt] using hc
      · simp [Worker.Ok, hlt]
  | pread =>
      simp only [hp, Option.some.injEq] at h hc
      subst h
      by_cases hle : (preadAt (E.contents c.fildes) c.bytesTransferred r).2 ≤ 0 <;>
        simpa [Worker.Ok, hle] using hc
  | readError | readAbort =>
      simp only [hp, Option.some.injEq] at h hc
      subst h
      exact hc
  | send =>
      simp only [hp, Option.some.injEq] at h hc
      subst h
      have hsum : 0 ≤ c.bytesTransferred + r ∧ c.fileLen ≤ (E.contents c.fildes).length :=
        ⟨hr hp, hc.2.2⟩
      unfold Worker.Ok
      by_cases heq : r = c.readLen
      · simpa only [if_pos heq] using hsum
      · simpa only [if_neg heq] using hsum
  | writeError | writeAbort =>
      simp only [hp, Option.some.injEq] at h hc
      subst h
      exact hc
  | advance =>
      simp only [hp, Option.some.injEq] at h hc
      subst h
      exact hc

/-- The steps of a worker for its task, without the queue. -/
def answerStep (E : Env) (c : Worker κ) (r : ℤ) : Option (Worker κ) :=
  (jobStep E c r).map Prod.fst

theorem Worker.Ok.answerStep (hc : c.Ok E) (hr : SendOk c r) (h : answerStep E c r = some c') :
    c'.Ok E := by
  obtain ⟨j, hj, rfl⟩ := Option.map_eq_some_iff.mp h
  exact hc.jobStep hr hj

/-- How many steps a point of `worker_main` is from the test of the copy loop. -/
def WorkerPc.rank : WorkerPc → ℕ
  | contentGet => 3
  | lseek => 2
  | sendOk => 1
  | pread => 7
  | readError => 6
  | readAbort => 5
  | send => 4
  | writeError => 3
  | writeAbort => 2
  | advance => 1
  | _ => 0

/-- Elsewhere than at the test of the loop, a step with result 0 leads towards it. -/
theorem Worker.Ok.closer (hc : c.Ok E) (hb : c.pc.busy = true) (hp : c.pc ≠ .copy) :
    SendOk c 0 ∧ ∃ c', MtServer.answerStep E c 0 = some c' ∧ c'.pc.busy = true ∧
      c'.pc.rank < c.pc.rank := by
  unfold Worker.Ok at hc
  cases hpc : c.pc with
  | waitTask _ | pop | unlock => simp [hpc, WorkerPc.busy] at hb
  | copy => exact absurd hpc hp
  | sendNotFound | returned => simp [hpc] at hc
  | contentGet =>
      simp only [hpc] at hc
      obtain ⟨t, ht, hknown⟩ := hc
      have hlt : ¬ E.contentGet t.path < 0 := by omega
      refine ⟨by simp [SendOk, hpc], { c with fildes := E.contentGet t.path, calls := [], pc := .lseek },
        ?_, rfl, by simp [WorkerPc.rank]⟩
      simp [MtServer.answerStep, MtServer.jobStep, hpc, ht, hlt]
  | pread =>
      refine ⟨by simp [SendOk, hpc], _, by simp only [MtServer.answerStep, MtServer.jobStep, hpc]; rfl, ?_⟩
      dsimp only
      split <;> exact ⟨rfl, by simp [WorkerPc.rank]⟩
  | send =>
      simp only [hpc] at hc
      refine ⟨fun _ => by omega, _, by simp only [MtServer.answerStep, MtServer.jobStep, hpc]; rfl, ?_⟩
      dsimp only
      split <;> exact ⟨rfl, by simp [WorkerPc.rank]⟩
  | lseek =>
      refine ⟨by simp [SendOk, hpc], _, by simp only [MtServer.answerStep, MtServer.jobStep, hpc]; rfl, rfl, ?_⟩
      simp [WorkerPc.rank]
  | _ =>
      refine ⟨by simp [SendOk, hpc], _, by simp only [MtServer.answerStep, MtServer.jobStep, hpc]; rfl, rfl, ?_⟩
      simp [WorkerPc.rank]

/-- From a point before the test of the loop the worker reaches it. -/
theorem Worker.Ok.reach_copy (hc : c.Ok E) (hb : c.pc.busy = true) :
    ∃ c', Reach (MtServer.answerStep E) SendOk c c' ∧ c'.Ok E ∧ c'.pc = .copy := by
  induction hn : c.pc.rank using Nat.strong_induction_on generalizing c with
  | _ n ih =>
      by_cases hp : c.pc = .copy
      · exact ⟨c, .refl, hc, hp⟩
      · obtain ⟨hr, c₁, hs, hb₁, hlt⟩ := hc.closer hb hp
        obtain ⟨c', hc', hok, hp'⟩ := ih _ (hn ▸ hlt) (hc.answerStep hr hs) hb₁ rfl
        exact ⟨c', (Reach.single hr hs).trans hc', hok, hp'⟩

theorem Worker.Ok.turn (hc : c.Ok E) (hp : c.pc = .copy) (hlt : c.bytesTransferred < c.fileLen) :
    ∃ c', Reach (MtServer.answerStep E) SendOk c c' ∧ c'.Ok E ∧ c'.pc = .copy ∧
      c'.fileLen = c.fileLen ∧ c.bytesTransferred < c'.bytesTransferred := by
  have hc' := hc
  unfold Worker.Ok at hc'
  simp only [hp] at hc'
  obtain ⟨hnonneg, hle⟩ := hc'
  obtain ⟨got, hgot⟩ : ∃ got, preadAt (E.contents c.fildes) c.bytesTransferred bufferSize = got :=
    ⟨_, rfl⟩
  have hpos : 0 < got.2 := by
    rw [← hgot, preadAt, if_neg (by omega)]
    simp only [List.length_take, List.length_drop, bufferSize]
    omega
  let c₁ : Worker κ := { c with pc := .pread }
  let c₂ : Worker κ :=
    { c with readLen := got.2, buffer := got.1 ++ c.buffer.drop got.1.length, pc := .send }
  let c₃ : Worker κ :=
    { c₂ with calls := c.calls ++ [.send c₂.buffer (sizeT got.2)], writeLen := got.2, pc := .advance }
  let c₄ : Worker κ := { c₃ with bytesTransferred := c.bytesTransferred + got.2, pc := .copy }
  have h₁ : MtServer.answerStep E c 0 = some c₁ := by
    simp [MtServer.answerStep, MtServer.jobStep, hp, hlt, c₁]
  have h₂ : MtServer.answerStep E c₁ bufferSize = some c₂ := by
    simp [MtServer.answerStep, MtServer.jobStep, hgot, hpos, c₁, c₂]
  have h₃ : MtServer.answerStep E c₂ got.2 = some c₃ := by
    simp [MtServer.answerStep, MtServer.jobStep, c₂, c₃]
  have h₄ : MtServer.answerStep E c₃ 0 = some c₄ := by
    simp [MtServer.answerStep, MtServer.jobStep, c₂, c₃, c₄]
  have hr₂ : SendOk c₂ got.2 := fun _ => by
    show 0 ≤ c.bytesTransferred + got.2
    omega
  refine ⟨c₄, ?_, ?_, rfl, rfl, ?_⟩
  · exact (((Reach.single (by simp [SendOk, hp]) h₁).step (by simp [SendOk, c₁]) h₂).step hr₂ h₃).step
      (by simp [SendOk, c₃]) h₄
  · exact ⟨by show 0 ≤ c.bytesTransferred + got.2; omega, hle⟩
  · show c.bytesTransferred < c.bytesTransferred + got.2
    omega

theorem Worker.Ok.copied (hc : c.Ok E) (hp : c.pc = .copy) :
    ∃ c', Reach (MtServer.answerStep E) SendOk c c' ∧ c'.pc = .waitTask .lock := by
  induction hn : (c.fileLen - c.bytesTransferred).toNat using Nat.strong_induction_on
    generalizing c with
  | _ n ih =>
      by_cases hlt : c.bytesTransferred < c.fileLen
      · obtain ⟨c₁, hr, hok, hp₁, hlen, hmore⟩ := hc.turn hp hlt
        obtain ⟨c', hr', hp'⟩ := ih _ (by omega) hok hp₁ rfl
        exact ⟨c', hr.trans hr', hp'⟩
      · have hs : MtServer.answerStep E c 0 = some { c with pc := .waitTask .lock } := by
          simp [MtServer.answerStep, MtServer.jobStep, hp, hlt]
        exact ⟨_, Reach.single (by simp [SendOk, hp]) hs, rfl⟩

/-- **A worker with a task can finish it.** -/
theorem Worker.Ok.done (hc : c.Ok E) (hb : c.pc.busy = true) :
    ∃ c', Reach (MtServer.answerStep E) SendOk c c' ∧ c'.pc = .waitTask .lock := by
  obtain ⟨c₁, hr, hok, hp⟩ := hc.reach_copy hb
  obtain ⟨c', hr', hp'⟩ := hok.copied hp
  exact ⟨c', hr.trans hr', hp'⟩

/-! ### Sound runs -/

/-- Every task is for a known path. -/
structure Known (E : Env) (s : State ω κ) : Prop where
  queue : ∀ t ∈ s.workq, 0 ≤ E.contentGet t.path
  request : ∀ t, s.request = some t → 0 ≤ E.contentGet t.path
  hand : ∀ t, s.t = some t → 0 ≤ E.contentGet t.path
  workers : ∀ w, (s.workers w).Ok E

omit [DecidableEq ω] in
theorem known_init : Known E (init ω κ) where
  queue := by simp [init]
  request := by simp [init]
  hand := by simp [init]
  workers := by simp [init, Worker.init, Worker.Ok]

theorem Worker.Ok.wake (hc : c.Ok E) : Worker.Ok E { c with pc := c.pc.wake } := by
  cases hp : c.pc with
  | waitTask w => trivial
  | _ =>
      have heq : c.pc.wake = c.pc := by rw [hp]; rfl
      rw [← hp, heq]
      exact hc

theorem Worker.Ok.of_known {t : Task κ} (ht : 0 ≤ E.contentGet t.path) :
    Worker.Ok E { c with job := some t, pc := .unlock } :=
  ⟨t, rfl, ht⟩

theorem Known.workerStep (hK : Known E s) (hr : SendOk (s.workers w) r)
    (h : workerStep E s w r = some s') : Known E s' := by
  have hframe := workerStep_frame h
  have hw := hK.workers w
  -- what the step does to the tasks, and that `w` stays well informed
  suffices hs : s'.workq ⊆ s.workq ∧ s'.request = s.request ∧ s'.t = s.t ∧ (s'.workers w).Ok E by
    obtain ⟨hq, hreq, ht, hw'⟩ := hs
    refine ⟨fun t htq => hK.queue t (hq htq), by rw [hreq]; exact hK.request, by rw [ht]; exact hK.hand,
      fun v => ?_⟩
    rcases eq_or_ne v w with rfl | hv
    · exact hw'
    · rw [hframe v hv]
      exact hK.workers v
  unfold MtServer.workerStep at h
  cases hp : (s.workers w).pc with
  | waitTask p =>
      simp only [hp, Option.map_eq_some_iff] at h
      obtain ⟨⟨op, n⟩, _, rfl⟩ := h
      refine ⟨List.Subset.refl _, rfl, rfl, ?_⟩
      cases n <;> simp [State.setWorker, Worker.Ok]
  | pop =>
      simp only [hp] at h
      split at h <;> obtain rfl := Option.some.inj h
      · exact ⟨List.Subset.refl _, rfl, rfl, hw⟩
      · next t q hq =>
          refine ⟨by rw [hq]; exact List.subset_cons_self t q, rfl, rfl, ?_⟩
          have ht := hK.queue t (by rw [hq]; exact List.mem_cons_self)
          simpa [State.setWorker] using Worker.Ok.of_known ht
  | unlock =>
      simp only [hp, Option.some.injEq] at h
      subst h
      refine ⟨List.Subset.refl _, rfl, rfl, ?_⟩
      simpa [State.setWorker, Worker.Ok, hp] using hw
  | _ =>
      simp only [hp, Option.map_eq_some_iff] at h
      obtain ⟨j, hj, rfl⟩ := h
      refine ⟨List.Subset.refl _, rfl, rfl, ?_⟩
      simpa [State.setWorker] using hw.jobStep hr hj

omit [DecidableEq ω] in
theorem Known.bossStep (hK : Known E s) (hq : s.boss = .idle → 0 ≤ E.contentGet q.path)
    (h : bossStep s q = some s') : Known E s' := by
  obtain ⟨hqueue, hreq, hhand, hworkers⟩ := hK
  unfold MtServer.bossStep at h
  cases hp : s.boss with
  | idle =>
      simp only [hp, Option.some.injEq] at h
      subst h
      refine ⟨hqueue, fun t ht => ?_, hhand, hworkers⟩
      obtain rfl := Option.some.inj ht
      exact hq hp
  | lock =>
      simp only [hp] at h
      obtain ⟨_, h⟩ := Option.ite_none_right_eq_some.mp h
      obtain rfl := Option.some.inj h
      exact ⟨hqueue, hreq, hhand, hworkers⟩
  | malloc =>
      simp only [hp, Option.some.injEq] at h
      subst h
      exact ⟨hqueue, hreq, hreq, hworkers⟩
  | enqueue =>
      simp only [hp, Option.some.injEq] at h
      subst h
      refine ⟨fun t ht => ?_, hreq, hhand, hworkers⟩
      rcases List.mem_append.mp ht with ht | ht
      · exact hqueue t ht
      · exact hhand t (by simpa [eq_comm] using ht)
  | unlock =>
      simp only [hp, Option.some.injEq] at h
      subst h
      exact ⟨hqueue, hreq, hhand, hworkers⟩
  | broadcast =>
      simp only [hp, Option.some.injEq] at h
      subst h
      exact ⟨hqueue, hreq, hhand, fun w => (hworkers w).wake⟩

theorem Known.step {a : Act ω κ} (hK : Known E s) (ha : Sound E s a) (h : step E s a = some s') :
    Known E s' := by
  unfold MtServer.step at h
  split at h
  · cases h
  · cases a with
    | boss q => exact hK.bossStep ha h
    | worker w r => exact hK.workerStep ha h
    | spurious w =>
        obtain rfl := Option.some.inj h
        refine ⟨hK.queue, hK.request, hK.hand, fun v => ?_⟩
        rcases eq_or_ne v w with rfl | hv
        · rw [setWorker_self]
          exact (hK.workers v).wake
        · rw [setWorker_of_ne s _ hv]
          exact hK.workers v

theorem Reachable.known (h : Reachable E (Sound E) s) : Known E s :=
  h.invariant known_init fun _ _ _ hK ha hs => hK.step ha hs

/-! ### The server goes on -/

/-- What is known of every state of a sound run. -/
structure Good (E : Env) (s : State ω κ) : Prop where
  queue : Queue s
  handover : Handover s
  known : Known E s

theorem Good.reach (hG : Good E s) (h : Reach (MtServer.step E) (Prompt E) s s') : Good E s' := by
  apply h.invariant hG
  intro s a s' hG ha hs
  exact ⟨hG.queue.step hs, hG.handover.step hG.queue hs, hG.known.step ha.1 hs⟩

theorem Reachable.good (h : Reachable E (Sound E) s) : Good E s :=
  ⟨Reachable.queue h, Reachable.handover h, Reachable.known h⟩

/-- The steps of a worker for its task are steps of the server, which leave the queue alone. -/
theorem step_of_jobStep (h : jobStep E (s.workers w) r = some j) (halive : s.exited = false) :
    ∃ s', step E s (.worker w r) = some s' ∧ s'.workers w = j.1 ∧ s'.view = s.view := by
  have hb := (busy_of_jobStep h).1
  refine ⟨{ s.setWorker w j.1 with
    offset := j.2.elim s.offset fun n => Function.update s.offset j.1.fildes n }, ?_, ?_, rfl⟩
  · simp only [step, halive, workerStep]
    cases hp : (s.workers w).pc with
    | waitTask _ | pop | unlock => simp [hp, WorkerPc.busy] at hb
    | _ => simp [h]
  · simp [State.setWorker]

/-- A worker can finish its task while nothing else happens. -/
theorem reach_of_answer (h : Reach (answerStep E) SendOk (s.workers w) c') (halive : s.exited = false) :
    ∃ s', Reach (step E) (Prompt E) s s' ∧ s'.workers w = c' ∧ s'.view = s.view := by
  induction h with
  | refl => exact ⟨s, .refl, rfl, rfl⟩
  | step _ hr hs ih =>
      obtain ⟨s₁, hreach, hw, hv⟩ := ih
      obtain ⟨j, hj, rfl⟩ := Option.map_eq_some_iff.mp hs
      rw [← hw] at hj hr
      obtain ⟨s₂, hs₂, hw₂, hv₂⟩ := step_of_jobStep hj ((congrArg View.exited hv).trans halive)
      have hprompt : Prompt E s₁ (.worker w _) := ⟨hr, by simp⟩
      exact ⟨s₂, hreach.step hprompt hs₂, hw₂, hv₂.trans hv⟩

/-- The server can go on such that the task is popped next. -/
def Takes (E : Env) (s : State ω κ) (t : Task κ) : Prop :=
  ∃ s' v, Reach (step E) (Prompt E) s s' ∧ s'.taken = s.taken ++ [(v, t)]

variable {t : Task κ} {ts : List (Task κ)}

theorem Takes.of_reach (h : Reach (step E) (Prompt E) s s') (htaken : s'.taken = s.taken)
    (ht : Takes E s' t) : Takes E s t := by
  obtain ⟨s'', v, hr, hv⟩ := ht
  exact ⟨s'', v, h.trans hr, by rw [hv, htaken]⟩

omit [DecidableEq ω] in
theorem prompt_worker (hp : (s.workers w).pc ≠ .send) : Prompt E s (.worker w r) :=
  ⟨fun h => absurd h hp, by simp⟩

theorem takes_of_pop (halive : s.exited = false) (hq : s.workq = t :: ts)
    (hp : (s.workers w).pc = .pop) : Takes E s t := by
  obtain ⟨s₁, hs, htaken⟩ : ∃ s₁, step E s (.worker w 0) = some s₁ ∧ s₁.taken = s.taken ++ [(w, t)] := by
    refine ⟨_, by simp only [step, halive, workerStep, hp, hq]; rfl, ?_⟩
    rfl
  exact ⟨s₁, w, Reach.single (prompt_worker (by rw [hp]; simp)) hs, htaken⟩

theorem takes_of_test (halive : s.exited = false) (hq : s.workq = t :: ts)
    (hp : (s.workers w).pc = .waitTask .test) : Takes E s t := by
  obtain ⟨s₁, hs, hp₁, hv⟩ : ∃ s₁, step E s (.worker w 0) = some s₁ ∧ (s₁.workers w).pc = .pop ∧
      s₁.view = s.view := by
    refine ⟨{ s.setWorker w { s.workers w with pc := .pop } with workqlock := s.workqlock }, ?_, ?_, rfl⟩
    · simp [step, halive, workerStep, hp, hq, Wait.step]
    · simp [State.setWorker]
  obtain ⟨hq₁, _, _, _, htaken, hex⟩ := View.mk.inj hv
  exact Takes.of_reach (Reach.single (prompt_worker (by rw [hp]; simp)) hs) htaken
    (takes_of_pop (hex.trans halive) (hq₁.trans hq) hp₁)

/-- With the mutex free a worker in front of it can take the task. -/
theorem takes_of_free (halive : s.exited = false) (hq : s.workq = t :: ts) (hn : s.workqlock = none)
    (hp : (s.workers w).pc = .waitTask .lock ∨ (s.workers w).pc = .waitTask .woken) : Takes E s t := by
  obtain ⟨s₁, hs, hp₁, hq₁, htaken, hex⟩ : ∃ s₁, step E s (.worker w 0) = some s₁ ∧
      (s₁.workers w).pc = .waitTask .test ∧ s₁.workq = s.workq ∧ s₁.taken = s.taken ∧
      s₁.exited = s.exited := by
    refine ⟨{ s.setWorker w { s.workers w with pc := .waitTask .test } with
      workqlock := some (.worker w) }, ?_, ?_, rfl, rfl, rfl⟩
    · obtain hp | hp := hp <;> simp [step, halive, workerStep, hp, hn, Wait.step]
    · simp [State.setWorker]
  have hsend : (s.workers w).pc ≠ .send := by obtain hp | hp := hp <;> simp [hp]
  exact Takes.of_reach (Reach.single (prompt_worker hsend) hs) htaken
    (takes_of_test (hex.trans halive) (hq₁.trans hq) hp₁)

theorem takes_of_waitTask {p : Wait} (hG : Good E s) (hq : s.workq = t :: ts)
    (hn : s.workqlock = none) (hp : (s.workers w).pc = .waitTask p) : Takes E s t := by
  have halive := hG.handover.alive
  have hheld := hG.queue.lock (.worker w)
  rw [hn, State.holds, hp] at hheld
  cases p with
  | lock => exact takes_of_free halive hq hn (.inl hp)
  | woken => exact takes_of_free halive hq hn (.inr hp)
  | test | sleep => simp [WorkerPc.holds, Wait.holds] at hheld
  | asleep =>
      -- the broadcast that it waits for is the next step of the accepting thread
      have howes := (hG.handover.wakeup w hp).resolve_left (by rw [hq]; simp)
      have hboss := hG.queue.lock .boss
      rw [hn, State.holds] at hboss
      cases hb : s.boss with
      | idle | lock | malloc | enqueue => simp [hb, BossPc.owesBroadcast] at howes
      | unlock => simp [hb, BossPc.holds] at hboss
      | broadcast =>
          obtain ⟨s₁, hs, hp₁, hv⟩ : ∃ s₁, step E s (.boss t) = some s₁ ∧
              (s₁.workers w).pc = .waitTask .woken ∧
              s₁.view = ⟨s.workq, s.workqlock, .idle, s.enqueued, s.taken, false⟩ := by
            refine ⟨_, by simp only [step, halive, bossStep, hb]; rfl, ?_, rfl⟩
            simp [hp, WorkerPc.wake, Wait.wake]
          obtain ⟨hq₁, hn₁, _, _, htaken, hex⟩ := View.mk.inj hv
          have hprompt : Prompt E s (.boss t) := ⟨fun hidle => by simp [hb] at hidle, by simp⟩
          exact Takes.of_reach (Reach.single hprompt hs) htaken
            (takes_of_free hex (hq₁.trans hq) (hn₁.trans hn) (.inr hp₁))

/-- With the mutex free any worker can take the task, after it has finished its own. -/
theorem takes_of_unlocked (hG : Good E s) (hq : s.workq = t :: ts) (hn : s.workqlock = none) (w : ω) :
    Takes E s t := by
  have halive := hG.handover.alive
  have hheld := hG.queue.lock (.worker w)
  rw [hn, State.holds] at hheld
  by_cases hb : (s.workers w).pc.busy = true
  · obtain ⟨c', hr, hp'⟩ := (hG.known.workers w).done hb
    obtain ⟨s₁, hreach, hw, hv⟩ := reach_of_answer hr halive
    obtain ⟨hq₁, hn₁, _, _, htaken, _⟩ := View.mk.inj hv
    apply Takes.of_reach hreach htaken
    exact takes_of_waitTask (hG.reach hreach) (hq₁.trans hq) (hn₁.trans hn) (by rw [hw, hp'])
  · cases hp : (s.workers w).pc with
    | waitTask p => exact takes_of_waitTask hG hq hn hp
    | pop | unlock => simp [hp, WorkerPc.holds] at hheld
    | _ => simp [hp, WorkerPc.busy] at hb

/-- A step of the accepting thread inside a call of `handler_get`. -/
theorem Takes.boss (hG : Good E s) (hb : s.boss ≠ .idle) (h : bossStep s t = some s')
    (htaken : s'.taken = s.taken) (ht : Good E s' → Takes E s' t) : Takes E s t := by
  have hs : step E s (.boss t) = some s' := by
    simp only [step, hG.handover.alive]
    exact h
  have hprompt : Prompt E s (.boss t) := ⟨fun hidle => absurd hidle hb, by simp⟩
  have hr : Reach (step E) (Prompt E) s s' := Reach.single hprompt hs
  exact Takes.of_reach hr htaken (ht (hG.reach hr))

/-- The accepting thread gives the mutex up; it may enqueue another task before. -/
theorem takes_of_boss (hG : Good E s) (hq : s.workq = t :: ts) (hb : s.boss.holds = true) (w : ω) :
    Takes E s t := by
  have unlock : ∀ {s : State ω κ} {ts}, s.workq = t :: ts → s.boss = .unlock → Good E s →
      Takes E s t := by
    intro s ts hq hb hG
    have hs : bossStep s t = some { s with workqlock := none, boss := .broadcast } := by
      simp only [bossStep, hb]
    exact Takes.boss hG (by simp [hb]) hs rfl fun hG' => takes_of_unlocked hG' hq rfl w
  have enqueue : ∀ {s : State ω κ} {ts}, s.workq = t :: ts → s.boss = .enqueue → Good E s →
      Takes E s t := by
    intro s ts hq hb hG
    have hs : bossStep s t = some { s with
        workq := s.workq ++ s.t.toList, enqueued := s.enqueued ++ s.t.toList, boss := .unlock } := by
      simp only [bossStep, hb]
    apply Takes.boss hG (by simp [hb]) hs rfl
    intro hG'
    have hq' : s.workq ++ s.t.toList = t :: (ts ++ s.t.toList) := by rw [hq, List.cons_append]
    exact unlock hq' rfl hG'
  cases hb' : s.boss with
  | idle | lock | broadcast => simp [hb', BossPc.holds] at hb
  | unlock => exact unlock hq hb' hG
  | enqueue => exact enqueue hq hb' hG
  | malloc =>
      have hs : bossStep s t = some { s with t := s.request, boss := .enqueue } := by
        simp only [bossStep, hb']
      exact Takes.boss hG (by simp [hb']) hs rfl (enqueue hq rfl)

/-- **The first task of the queue can be taken.** -/
theorem Good.takes (hG : Good E s) (hq : s.workq = t :: ts) (w : ω) : Takes E s t := by
  have halive := hG.handover.alive
  cases hm : s.workqlock with
  | none => exact takes_of_unlocked hG hq hm w
  | some u =>
      have hheld := (hG.queue.lock u).mp hm
      cases u with
      | boss => exact takes_of_boss hG hq hheld w
      | worker v =>
          simp only [State.holds] at hheld
          have hcrit := hG.queue.worker rfl hheld
          cases hp : (s.workers v).pc with
          | waitTask p =>
              rw [hp] at hheld hcrit
              cases p with
              | lock | asleep | woken => cases hheld
              | test => exact takes_of_test halive hq hp
              | sleep => exact absurd (hcrit rfl) (by rw [hq]; simp)
          | pop => exact takes_of_pop halive hq hp
          | unlock =>
              have hs : step E s (.worker v 0) = some
                  { s.setWorker v { s.workers v with pc := .contentGet } with workqlock := none } := by
                simp [step, halive, workerStep, hp]
              have hr : Reach (step E) (Prompt E) s _ :=
                Reach.single (prompt_worker (by rw [hp]; simp)) hs
              exact Takes.of_reach hr rfl (takes_of_unlocked (hG.reach hr) hq rfl w)
          | _ => simp [hp, WorkerPc.holds] at hheld

/-- **Every worker can come back to its waiting loop.** -/
theorem Good.comes_back (hG : Good E s) (w : ω) :
    ∃ s' p, Reach (step E) (Prompt E) s s' ∧ (s'.workers w).pc = .waitTask p := by
  have busy : ∀ {s : State ω κ}, Good E s → (s.workers w).pc.busy = true →
      ∃ s' p, Reach (step E) (Prompt E) s s' ∧ (s'.workers w).pc = .waitTask p := by
    intro s hG hb
    obtain ⟨c', hr, hp'⟩ := (hG.known.workers w).done hb
    obtain ⟨s₁, hreach, hw, _⟩ := reach_of_answer hr hG.handover.alive
    exact ⟨s₁, _, hreach, by rw [hw, hp']⟩
  have unlock : ∀ {s : State ω κ}, Good E s → (s.workers w).pc = .unlock →
      ∃ s' p, Reach (step E) (Prompt E) s s' ∧ (s'.workers w).pc = .waitTask p := by
    intro s hG hp
    have hs : step E s (.worker w 0) = some
        { s.setWorker w { s.workers w with pc := .contentGet } with workqlock := none } := by
      simp [step, hG.handover.alive, workerStep, hp]
    have hr : Reach (step E) (Prompt E) s _ := Reach.single (prompt_worker (by rw [hp]; simp)) hs
    obtain ⟨s', p, hreach, hp'⟩ := busy (hG.reach hr) (by simp [State.setWorker, WorkerPc.busy])
    exact ⟨s', p, hr.trans hreach, hp'⟩
  cases hp : (s.workers w).pc with
  | waitTask p => exact ⟨s, p, .refl, hp⟩
  | unlock => exact unlock hG hp
  | pop =>
      obtain ⟨t, ts, hq⟩ := List.exists_cons_of_ne_nil (hG.queue.worker hp rfl)
      have hs : step E s (.worker w 0) = some
          { s.setWorker w { s.workers w with job := some t, pc := .unlock } with
            workq := ts, taken := s.taken ++ [(w, t)] } := by
        simp [step, hG.handover.alive, workerStep, hp, hq]
      have hr : Reach (step E) (Prompt E) s _ := Reach.single (prompt_worker (by rw [hp]; simp)) hs
      obtain ⟨s', p, hreach, hp'⟩ := unlock (hG.reach hr) (by simp [State.setWorker])
      exact ⟨s', p, hr.trans hreach, hp'⟩
  | _ => exact busy hG (by rw [hp]; rfl)

/-- **No worker is lost** in a run whose requests are for known paths and whose failed sends are
not counted below zero: in every state reached no worker has returned, every worker can come back
to its waiting loop, and if there is a worker, the first task of the queue can be taken, all
without a spurious wakeup. The continuation chooses the results of `pread` and `gfs_send`. -/
theorem pool_kept (E : Env) (s : State ω κ) (h : Reachable E (Sound E) s) :
    (∀ w, (s.workers w).pc ≠ .returned) ∧
    (∀ w, ∃ s' p, Reach (step E) (Prompt E) s s' ∧ (s'.workers w).pc = .waitTask p) ∧
    ∀ (_ : ω) t ts, s.workq = t :: ts →
      ∃ s' v, Reach (step E) (Prompt E) s s' ∧ s'.taken = s.taken ++ [(v, t)] := by
  have hG := Reachable.good h
  refine ⟨fun w hw => ?_, hG.comes_back, fun w t ts hq => hG.takes hq w⟩
  have hok := hG.known.workers w
  unfold Worker.Ok at hok
  simp [hw] at hok

/-- One task is answered in full, another is queued. -/
def servedRun : List (Act Unit ℕ) :=
  List.replicate 6 (.boss ⟨0, str "/a"⟩) ++ List.replicate 8 (.worker () 7) ++
    [.worker () 4096, .worker () 7, .worker () 0, .worker () 0] ++
    List.replicate 5 (.boss ⟨1, str "/a"⟩)

def servedEnd : State Unit ℕ :=
  (execOk (step oneFile) (Sound oneFile) (init Unit ℕ) servedRun).getD (init Unit ℕ)

theorem pool_kept_served :
    servedEnd.workq = [⟨1, str "/a"⟩] ∧ ∃ s' v, Reach (step oneFile) (Prompt oneFile) servedEnd s' ∧
      s'.taken = servedEnd.taken ++ [(v, ⟨1, str "/a"⟩)] :=
  ⟨by decide +kernel, (pool_kept oneFile servedEnd (reach_of_execOk servedRun rfl)).2.2 ()
    ⟨1, str "/a"⟩ [] (by decide +kernel)⟩

/-- A request for a path that is not in the index. -/
def unknownRun : List (Act Unit ℕ) :=
  List.replicate 6 (.boss ⟨0, str "/b"⟩) ++ List.replicate 6 (.worker () 0)

def unknownEnd : State Unit ℕ := (exec (step oneFile) (init Unit ℕ) unknownRun).getD (init Unit ℕ)

theorem pool_shrinks :
    ¬ ∀ s : State Unit ℕ, Reachable oneFile Any s → ∀ w, (s.workers w).pc ≠ .returned := by
  intro h
  have hp : (unknownEnd.workers ()).pc = .returned := by decide +kernel
  exact h unknownEnd (reach_of_exec unknownRun rfl) () hp

end OsProjects.MtServer
