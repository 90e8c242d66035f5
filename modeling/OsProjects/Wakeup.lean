import OsProjects.ChannelInv

/-! # Wakeups between the two sides

A side that has failed its test gives its mutex back and falls asleep in one step.  A wakeup
sent before that step finds nobody asleep; it is not lost if the sender cannot make the
predicate true while the tester holds its mutex.  In the repository it can: the two programs
put `data_mutex` and `file_len_mutex` at exchanged positions (`proxyLayout`, `cacheLayout`), so
the sides lock different mutexes for the same field.

* `no_lostWakeup` — a run in which no decisive wakeup falls into the window between a failed
  test and its sleep (`Heard`) never reaches a lost wakeup, whatever `pread` and `gfs_send` do.
* `lostWakeup_missing` — with the layouts of the repository a lost wakeup is reachable.
* `no_lostWakeup_of_sameLayout` — with one definition of `struct shm_data_t` for both programs
  every run is such a run. -/

namespace OsProjects.Channel

open Monitor Transition

/-- The handler sleeps in `pthread_cond_wait` although its predicate is true. -/
def State.HandlerOverslept (s : State) : Prop :=
  (s.hpc = .waitLength .asleep ∧ s.fileLength ≠ 0) ∨
    (s.hpc = .waitChunk .asleep ∧ s.bytesWritten ≠ 0)

/-- The worker sleeps in `pthread_cond_wait` although its predicate is true. -/
def State.WorkerOverslept (s : State) : Prop :=
  (s.wpc = .waitLength .asleep ∧ s.fileLength = 0) ∨
    (s.wpc = .waitSlot .asleep ∧ s.bytesWritten = 0)

/-- Nothing more comes from the handler: it sleeps or has returned. -/
def State.HandlerSilent (s : State) : Prop :=
  s.hpc = .waitLength .asleep ∨ s.hpc = .waitChunk .asleep ∨ s.hpc = .returned ∨ s.hpc = .failed

/-- Nothing more comes from the worker: it sleeps or has ended. -/
def State.WorkerSilent (s : State) : Prop :=
  s.wpc = .waitLength .asleep ∨ s.wpc = .waitSlot .asleep ∨ s.wpc = .finished ∨ s.wpc = .exited

/-- A side oversleeps and the other one will not wake it. -/
def State.LostWakeup (s : State) : Prop :=
  (s.HandlerOverslept ∧ s.WorkerSilent) ∨ (s.WorkerOverslept ∧ s.HandlerSilent)

/-- No decisive wakeup falls into the window between a failed test and its sleep: the handler's
broadcast of an empty slot, the worker's broadcast of a negative length (after which the worker
ends), the worker's signal of a chunk. -/
def Heard (s : State) : Act → Prop
  | .handler _ => s.hpc = .broadcastChunk → s.wpc = .waitSlot .sleep → s.bytesWritten ≠ 0
  | .worker _ =>
      (s.wpc = .broadcastLength → s.hpc = .waitLength .sleep → 0 ≤ s.fileLength) ∧
        (s.wpc = .signal → s.bytesWritten ≠ 0 →
          (s.hpc = .waitLength .sleep → s.fileLength = 0) ∧ s.hpc ≠ .waitChunk .sleep)
  | .spuriousHandler | .spuriousWorker => True

instance (s : State) : (a : Act) → Decidable (Heard s a)
  | .handler _ => inferInstanceAs (Decidable (_ → _ → _))
  | .worker _ => inferInstanceAs (Decidable ((_ → _ → _) ∧ (_ → _ → _)))
  | .spuriousHandler | .spuriousWorker => isTrue trivial

/-! ### What is still due -/

/-- The worker has a wakeup ahead of it for a handler that waits for the length: the broadcast
of the length, or the signal of the first chunk, which it can still publish at once. -/
def WPc.lengthDue (F bytesWritten : ℤ) : WPc → Prop
  | zeroWritten | unlockLength | broadcastLength => True
  | branch | loop | waitSlot .lock | waitSlot .test | pread | publish | unlockSlot | advance =>
      0 < F ∧ bytesWritten = 0
  | signal => 0 < F
  | _ => False

/-- Whoever has failed its test, and whose predicate has become true since, has a wakeup due. -/
structure Due (E : Env) (s : State) : Prop where
  length : ∀ w, s.hpc = .waitLength w → w.drowsy → s.fileLength ≠ 0 →
    s.wpc.lengthDue E.fileLen s.bytesWritten
  chunk : ∀ w, s.hpc = .waitChunk w → w.drowsy → s.bytesWritten ≠ 0 → s.wpc = .signal
  slot : ∀ w, s.wpc = .waitSlot w → w.drowsy → s.bytesWritten = 0 →
    s.hpc = .unlockChunk ∨ s.hpc = .broadcastChunk
  /-- The worker finds the length already zero. -/
  worker : ∀ w, s.wpc = .waitLength w → ¬ w.drowsy

theorem due_init (E : Env) : Due E (init E) where
  length := by simp [init]
  chunk := by simp [init]
  slot := by simp [init]
  worker := by simp [init]

@[simp] theorem WPc.lengthDue_wake (F b : ℤ) (p : WPc) :
    p.wake.lengthDue F b ↔ p.lengthDue F b := by
  cases p with
  | waitSlot w => cases w <;> rfl
  | _ => rfl

/-! A thread that is drowsy after a wakeup was not asleep yet. -/

theorem HPc.waitLength_of_wake {p : HPc} {w : Wait} (h : p.wake = .waitLength w) (hw : w.drowsy) :
    p = .waitLength .sleep ∧ w = .sleep := by
  cases p with
  | waitLength v =>
      obtain rfl : v.wake = w := by simpa [wake] using h
      obtain rfl := Wait.eq_sleep_of_wake hw
      exact ⟨rfl, rfl⟩
  | _ => simp [wake] at h

theorem HPc.waitChunk_of_wake {p : HPc} {w : Wait} (h : p.wake = .waitChunk w) (hw : w.drowsy) :
    p = .waitChunk .sleep ∧ w = .sleep := by
  cases p with
  | waitChunk v =>
      obtain rfl : v.wake = w := by simpa [wake] using h
      obtain rfl := Wait.eq_sleep_of_wake hw
      exact ⟨rfl, rfl⟩
  | _ => simp [wake] at h

theorem WPc.waitLength_of_wake {p : WPc} {w : Wait} (h : p.wake = .waitLength w) (hw : w.drowsy) :
    p = .waitLength .sleep ∧ w = .sleep := by
  cases p with
  | waitLength v =>
      obtain rfl : v.wake = w := by simpa [wake] using h
      obtain rfl := Wait.eq_sleep_of_wake hw
      exact ⟨rfl, rfl⟩
  | _ => simp [wake] at h

theorem WPc.waitSlot_of_wake {p : WPc} {w : Wait} (h : p.wake = .waitSlot w) (hw : w.drowsy) :
    p = .waitSlot .sleep ∧ w = .sleep := by
  cases p with
  | waitSlot v =>
      obtain rfl : v.wake = w := by simpa [wake] using h
      obtain rfl := Wait.eq_sleep_of_wake hw
      exact ⟨rfl, rfl⟩
  | _ => simp [wake] at h

/-! ### Steps -/

section steps

variable {E : Env} {s s' : State} {w r : ℤ}

/-- The handler leaves the slot alone and has no broadcast of an empty slot to send. -/
theorem Due.handler_alone (hD : Due E s) (hwpc : s'.wpc = s.wpc)
    (hb : s'.bytesWritten = s.bytesWritten) (hp : s.hpc ≠ .unlockChunk ∧ s.hpc ≠ .broadcastChunk)
    (hlength : ∀ v, s'.hpc = .waitLength v → v.drowsy → s'.fileLength ≠ 0 →
      s.wpc.lengthDue E.fileLen s.bytesWritten)
    (hchunk : ∀ v, s'.hpc = .waitChunk v → v.drowsy → s.bytesWritten ≠ 0 → s.wpc = .signal) :
    Due E s' := by
  constructor
  · rw [hwpc, hb]
    exact hlength
  · rw [hwpc, hb]
    exact hchunk
  · -- no worker is drowsy in front of an empty slot
    rw [hwpc, hb]
    intro v hv hd hempty
    rcases hD.slot v hv hd hempty with hslot | hslot
    · exact absurd hslot hp.1
    · exact absurd hslot hp.2
  · rw [hwpc]
    exact hD.worker

/-- The worker leaves the slot alone and has no signal to send. -/
theorem Due.worker_alone (hD : Due E s) (hhpc : s'.hpc = s.hpc)
    (hb : s'.bytesWritten = s.bytesWritten) (hp : s.wpc ≠ .signal)
    (hlength : ∀ v, s.hpc = .waitLength v → v.drowsy → s'.fileLength ≠ 0 →
      s'.wpc.lengthDue E.fileLen s.bytesWritten)
    (hslot : ∀ v, s'.wpc = .waitSlot v → v.drowsy → s.bytesWritten = 0 →
      s.hpc = .unlockChunk ∨ s.hpc = .broadcastChunk)
    (hworker : ∀ v, s'.wpc = .waitLength v → ¬ v.drowsy) : Due E s' := by
  constructor
  · rw [hhpc, hb]
    exact hlength
  · rw [hhpc, hb]
    intro v hv hd hfull
    exact absurd (hD.chunk v hv hd hfull) hp
  · rw [hhpc, hb]
    exact hslot
  · exact hworker

theorem Due.handlerStep (hI : Inv E s) (hD : Due E s) (ha : Heard s (.handler w))
    (h : handlerStep E s w = some s') : Due E s' := by
  have hempty := hI.empty_of_destroy
  have hH := hI.handler
  have hW := hI.worker
  cases hp : s.hpc with
  | waitLength p =>
      simp only [Channel.handlerStep, hp, State.waitHandler, Option.map_eq_some_iff] at h
      obtain ⟨⟨op, q⟩, hw, rfl⟩ := h
      refine hD.handler_alone rfl rfl (by simp [hp]) (fun v hv hd hl => ?_) ?_
      · cases q with
        | none => cases hv
        | some q =>
            cases hv
            obtain hdp | hok := Wait.drowsy_of_step hw hd
            · exact hD.length p hp hdp hl
            · simp only [ne_eq, decide_eq_false_iff_not, not_not] at hok
              exact absurd hok hl
      · cases q <;> simp
  | waitChunk p =>
      simp only [Channel.handlerStep, hp, State.waitHandler, Option.map_eq_some_iff] at h
      obtain ⟨⟨op, q⟩, hw, rfl⟩ := h
      refine hD.handler_alone rfl rfl (by simp [hp]) ?_ (fun v hv hd hb => ?_)
      · cases q <;> simp
      · cases q with
        | none => cases hv
        | some q =>
            cases hv
            obtain hdp | hok := Wait.drowsy_of_step hw hd
            · exact hD.chunk p hp hdp hb
            · simp only [ne_eq, decide_eq_false_iff_not, not_not] at hok
              exact absurd hok hb
  | createWritten =>
      simp only [Channel.handlerStep, hp, Option.some.injEq] at h
      subst h
      -- the worker still waits for the message
      rw [hp] at hH
      rw [hH.1] at hW
      have hg := hW.get_of_unsent
      exact ⟨by simp, by simp, by simp [hg], hD.worker⟩
  | clear =>
      simp only [Channel.handlerStep, hp, Option.some.injEq] at h
      subst h
      exact ⟨by simp, by simp, fun _ _ _ _ => .inl rfl, hD.worker⟩
  | unlockChunk =>
      simp only [Channel.handlerStep, hp, Option.some.injEq] at h
      subst h
      exact ⟨by simp, by simp, fun _ _ _ _ => .inr rfl, hD.worker⟩
  | broadcastChunk =>
      simp only [Channel.handlerStep, hp, Option.some.injEq] at h
      subst h
      refine ⟨by simp, by simp, fun v hv hd hb => ?_, fun v hv hd => ?_⟩
      · exact absurd hb (ha hp (WPc.waitSlot_of_wake hv hd).1)
      · exact hD.worker _ (WPc.waitLength_of_wake hv hd).1 rfl
  | broadcastLength =>
      simp only [Channel.handlerStep, hp, Option.some.injEq] at h
      subst h
      refine ⟨by simp, by simp, fun v hv hd hb => ?_, fun v hv hd => ?_⟩
      · simpa [hp] using hD.slot _ (WPc.waitSlot_of_wake hv hd).1 rfl hb
      · exact hD.worker _ (WPc.waitLength_of_wake hv hd).1 rfl
  | branch =>
      simp only [Channel.handlerStep, hp] at h
      split at h <;> obtain rfl := Option.some.inj h <;>
        exact hD.handler_alone rfl rfl (by simp [hp]) (by simp) (by simp)
  | loop =>
      simp only [Channel.handlerStep, hp, Option.some.injEq] at h
      subst h
      split
      · refine hD.handler_alone rfl rfl (by simp [hp]) (by simp) fun v hv hd => ?_
        cases hv
        cases hd
      · exact hD.handler_alone rfl rfl (by simp [hp]) (by simp) (by simp)
  | mqSend =>
      simp only [Channel.handlerStep, hp, Option.some.injEq] at h
      subst h
      refine hD.handler_alone rfl rfl (by simp [hp]) (fun v hv hd => ?_) (by simp)
      cases hv
      cases hd
  | send =>
      simp only [Channel.handlerStep, hp, State.gfsSend, Option.some.injEq] at h
      split at h <;> subst h <;>
        exact hD.handler_alone rfl rfl (by simp [hp]) (by simp) (by simp)
  | destroyWritten =>
      simp only [Channel.handlerStep, hp, Option.some.injEq] at h
      subst h
      exact hD.handler_alone rfl (hempty hp).symm (by simp [hp]) (by simp) (by simp)
  | reply =>
      simp only [Channel.handlerStep, hp, State.replyWith, Option.some.injEq] at h
      split at h <;> subst h <;>
        exact hD.handler_alone rfl rfl (by simp [hp]) (by simp) (by simp)
  | returned | failed => simp [Channel.handlerStep, hp] at h
  | _ =>
      simp only [Channel.handlerStep, hp, Option.some.injEq] at h
      subst h
      exact hD.handler_alone rfl rfl (by simp [hp]) (by simp) (by simp)

theorem Due.workerStep (hI : Inv E s) (hD : Due E s) (ha : Heard s (.worker r))
    (h : workerStep E s r = some s') : Due E s' := by
  have hH := hI.handler
  have hW := hI.worker
  have hcount := hI.count
  have hlength := hD.length
  cases hp : s.wpc with
  | get =>
      simp only [Channel.workerStep, hp, Option.ite_none_right_eq_some] at h
      obtain ⟨_, h⟩ := h
      obtain rfl := Option.some.inj h
      rw [hp] at hlength
      exact hD.worker_alone rfl rfl (by simp [hp]) (fun v hv hd hl => (hlength v hv hd hl).elim)
        (by simp) (by simp)
  | zeroLength =>
      simp only [Channel.workerStep, hp, Option.some.injEq] at h
      subst h
      exact hD.worker_alone rfl rfl (by simp [hp]) (by simp) (by simp) (by simp)
  | checkLength =>
      simp only [Channel.workerStep, hp, Option.some.injEq] at h
      subst h
      rw [hp] at hlength
      refine hD.worker_alone rfl rfl (by simp [hp]) (fun v hv hd hl => (hlength v hv hd hl).elim)
        (fun v hv => ?_) (fun v hv hd => ?_)
      · split at hv <;> cases hv
      · split at hv <;> cases hv
        cases hd
  | waitLength p =>
      simp only [Channel.workerStep, hp, State.waitWorker, Option.map_eq_some_iff] at h
      obtain ⟨⟨op, q⟩, hw, rfl⟩ := h
      rw [hp] at hlength hW
      refine hD.worker_alone rfl rfl (by simp [hp]) (fun v hv hd hl => (hlength v hv hd hl).elim)
        ?_ (fun v hv hd => ?_)
      · cases q <;> simp
      · cases q with
        | none => cases hv
        | some q =>
            cases hv
            obtain hdp | hok := Wait.drowsy_of_step hw hd
            · exact hD.worker p hp hdp
            · simp [hW.2.2.1] at hok
  | setLength =>
      simp only [Channel.workerStep, hp, Option.some.injEq] at h
      subst h
      exact hD.worker_alone rfl rfl (by simp [hp]) (fun _ _ _ _ => trivial) (by simp) (by simp)
  | zeroWritten =>
      simp only [Channel.workerStep, hp, Option.some.injEq] at h
      subst h
      exact ⟨fun _ _ _ _ => trivial, by simp, by simp, by simp⟩
  | unlockLength =>
      simp only [Channel.workerStep, hp, Option.some.injEq] at h
      subst h
      exact hD.worker_alone rfl rfl (by simp [hp]) (fun _ _ _ _ => trivial) (by simp) (by simp)
  | broadcastLength =>
      simp only [Channel.workerStep, hp, Option.some.injEq] at h
      subst h
      rw [hp] at hW
      refine ⟨fun v hv hd hl => ?_, fun v hv hd hb => ?_, by simp, by simp⟩
      · -- the first chunk will wake a handler that this broadcast misses
        obtain ⟨hs, -⟩ := HPc.waitLength_of_wake hv hd
        have hF := hW.2.2.1 (by simp [hs, HPc.lengthGone])
        have hpos := ha.1 hp hs
        have hl : s.fileLength ≠ 0 := hl
        exact ⟨by omega, hW.2.2.2.1⟩
      · have hchunk := hD.chunk _ (HPc.waitChunk_of_wake hv hd).1 rfl hb
        rw [hp] at hchunk
        cases hchunk
  | branch =>
      simp only [Channel.workerStep, hp] at h
      rw [hp] at hlength
      split at h <;> obtain rfl := Option.some.inj h
      · next hf =>
          refine hD.worker_alone rfl rfl (by simp [hp]) (fun v hv hd hl => ?_) (by simp) (by simp)
          have hF : E.fileLen = -1 := by
            rw [Option.isNone_iff_eq_none] at hf
            simp [Env.fileLen, hf]
          have := (hlength v hv hd hl).1
          omega
      · exact hD.worker_alone rfl rfl (by simp [hp]) hlength (by simp) (by simp)
  | loop =>
      simp only [Channel.workerStep, hp, Option.some.injEq] at h
      subst h
      rw [hp] at hlength hW
      refine hD.worker_alone rfl rfl (by simp [hp]) (fun v hv hd hl => ?_) (fun v hv hd => ?_)
        (fun v hv => ?_)
      · -- nothing is published yet, so the worker's loop goes on
        obtain ⟨hF, hb⟩ := hlength v hv hd hl
        have hH' := hH
        simp only [hv, HPc.Ok] at hH'
        simp only [State.cleared, State.published, hv, hp, HPc.inflight, WPc.inflight,
          cond_false] at hcount
        have hlt : s.wBytesWritten < s.wFileLen := by
          rw [hW.2.1]
          omega
        rw [if_pos hlt]
        exact ⟨hF, hb⟩
      · split at hv <;> cases hv
        cases hd
      · split at hv <;> cases hv
  | waitSlot p =>
      simp only [Channel.workerStep, hp, State.waitWorker, Option.map_eq_some_iff] at h
      obtain ⟨⟨op, q⟩, hw, rfl⟩ := h
      rw [hp] at hlength
      cases q with
      | none =>
          refine hD.worker_alone rfl rfl (by simp [hp]) (fun v hv hd hl => ?_) (by simp) (by simp)
          have hdue := hlength v hv hd hl
          cases p with
          | lock | test => exact hdue
          | sleep | asleep | woken => exact hdue.elim
      | some q =>
          refine hD.worker_alone rfl rfl (by simp [hp]) (fun v hv hd hl => ?_)
            (fun v hv hd hb => ?_) (by simp)
          · -- with an empty slot the loop is not entered
            have hdue := hlength v hv hd hl
            rcases Wait.step_cases hw with ⟨rfl, _, _, _, hq⟩ | ⟨rfl, _, _, _, _, hq⟩ |
              ⟨rfl, _, _, hq⟩ | ⟨rfl, hok, _, hq⟩ | ⟨rfl, _, hq⟩ | ⟨rfl, _, _, hq⟩
            · cases hq
              exact hdue
            · cases hq
            · cases hq
            · simp [hdue.2] at hok
            · exact hdue.elim
            · exact hdue.elim
          · cases hv
            obtain hdp | hok := Wait.drowsy_of_step hw hd
            · exact hD.slot p hp hdp hb
            · simp only [decide_eq_false_iff_not] at hok
              exact absurd hb hok
  | pread =>
      simp only [Channel.workerStep, hp, Option.ite_none_right_eq_some] at h
      obtain ⟨_, h⟩ := h
      obtain rfl := Option.some.inj h
      rw [hp] at hlength
      exact hD.worker_alone rfl rfl (by simp [hp]) hlength (by simp) (by simp)
  | publish =>
      simp only [Channel.workerStep, hp, Option.some.injEq] at h
      subst h
      rw [hp] at hlength
      exact ⟨fun v hv hd hl => (hlength v hv hd hl).1, fun _ _ _ _ => rfl, by simp, by simp⟩
  | signal =>
      simp only [Channel.workerStep, hp, Option.some.injEq] at h
      subst h
      rw [hp] at hlength
      refine ⟨fun v hv hd hl => ?_, fun v hv hd hb => ?_, by simp, by simp⟩
      · obtain ⟨hs, -⟩ := HPc.waitLength_of_wake hv hd
        refine ⟨hlength _ hs rfl hl, ?_⟩
        by_contra hb
        exact hl ((ha.2 hp hb).1 hs)
      · exact absurd (HPc.waitChunk_of_wake hv hd).1 (ha.2 hp hb).2
  | unlockSlot | advance =>
      simp only [Channel.workerStep, hp, Option.some.injEq] at h
      subst h
      rw [hp] at hlength
      exact hD.worker_alone rfl rfl (by simp [hp]) hlength (by simp) (by simp)
  | finished | exited => simp [Channel.workerStep, hp] at h

theorem Due.step {a : Act} (hI : Inv E s) (hD : Due E s) (ha : Heard s a)
    (h : step E s a = some s') : Due E s' := by
  cases a with
  | handler w => exact hD.handlerStep hI ha h
  | worker r => exact hD.workerStep hI ha h
  | spuriousHandler =>
      obtain rfl := Option.some.inj h
      obtain ⟨hlength, hchunk, hslot, hworker⟩ := hD
      refine ⟨fun v hv hd => hlength _ (HPc.waitLength_of_wake hv hd).1 rfl,
        fun v hv hd => hchunk _ (HPc.waitChunk_of_wake hv hd).1 rfl, fun v hv hd hb => ?_, hworker⟩
      simpa using hslot v hv hd hb
  | spuriousWorker =>
      obtain rfl := Option.some.inj h
      obtain ⟨hlength, hchunk, hslot, hworker⟩ := hD
      refine ⟨fun v hv hd hl => ?_, fun v hv hd hb => ?_,
        fun v hv hd => hslot _ (WPc.waitSlot_of_wake hv hd).1 rfl,
        fun v hv hd => hworker _ (WPc.waitLength_of_wake hv hd).1 rfl⟩
      · simpa using hlength v hv hd hl
      · simpa using hchunk v hv hd hb

theorem Reachable.due (h : Reachable E Heard s) : Due E s :=
  h.invariant_of (fun _ => Reachable.inv) (due_init E) fun _ _ _ hI hD ha hs => hD.step hI ha hs

end steps

/-- A side that oversleeps has a wakeup due, which the other side will send. -/
theorem Due.not_lost {E : Env} {s : State} (hD : Due E s) : ¬ s.LostWakeup := by
  obtain ⟨hlength, hchunk, hslot, hworker⟩ := hD
  rintro (⟨⟨hp, hl⟩ | ⟨hp, hb⟩, hsilent⟩ | ⟨⟨hp, hl⟩ | ⟨hp, hb⟩, hsilent⟩)
  · have hdue := hlength .asleep hp rfl hl
    rcases hsilent with hw | hw | hw | hw <;> rw [hw] at hdue <;> exact hdue
  · have hdue := hchunk .asleep hp rfl hb
    rcases hsilent with hw | hw | hw | hw <;> rw [hw] at hdue <;> cases hdue
  · exact hworker .asleep hp rfl
  · have hdue := hslot .asleep hp rfl hb
    rcases hsilent with hw | hw | hw | hw <;> rw [hw] at hdue <;> rcases hdue with hdue | hdue <;>
      cases hdue

/-- **No lost wakeup** in a run in which no decisive wakeup falls into a window between a failed
test and its sleep. -/
theorem no_lostWakeup (E : Env) (s : State) (h : Reachable E Heard s) : ¬ s.LostWakeup :=
  h.due.not_lost

/-! ### The layouts of the repository -/

/-- A path that is not in the cache, with the two definitions of `struct shm_data_t`. -/
def missingFile : Env := ⟨.pthread, proxyLayout, cacheLayout, 144, 1024, none, kilobyte_lt⟩

/-- The handler has sent its message and sleeps until the length is there. -/
def asleepEnd : State :=
  (execOk (step missingFile) Heard (init missingFile) (List.replicate 6 (.handler 0))).getD
    (init missingFile)

/-- The worker stores the length, broadcasts and ends. -/
def awakenedEnd : State :=
  (execOk (step missingFile) Heard (init missingFile)
    (List.replicate 6 (.handler 0) ++ List.replicate 10 (.worker 0))).getD (init missingFile)

theorem no_lostWakeup_awakened : asleepEnd.hpc = .waitLength .asleep ∧
    awakenedEnd.hpc = .waitLength .woken ∧ awakenedEnd.wpc = .finished ∧ ¬ awakenedEnd.LostWakeup :=
  ⟨by decide +kernel, by decide +kernel, by decide +kernel, no_lostWakeup missingFile awakenedEnd
    (reach_of_isSome_execOk _ (by decide +kernel))⟩

/-- The handler tests `mem->file_length`; the worker, under its other mutex, stores `-1`,
broadcasts and ends; then the handler falls asleep. -/
def missedLength : List Act :=
  List.replicate 5 (.handler 0) ++ List.replicate 10 (.worker 0) ++ [.handler 0]

def missedLengthEnd : State :=
  (exec (step missingFile) (init missingFile) missedLength).getD (init missingFile)

theorem lostWakeup_missing :
    ¬ ∀ s, Reachable missingFile Any s → ¬ s.LostWakeup := by
  intro h
  refine h missedLengthEnd (reach_of_exec missedLength rfl) (.inl ⟨.inl ⟨rfl, ?_⟩, ?_⟩)
  · decide +kernel
  · exact .inr (.inr (.inl rfl))

/-! ### One definition for both programs -/

/-- The windows between a failed test and its sleep, when the sides lock the same mutex for the
same field: nobody changes the field there. -/
structure Windows (s : State) : Prop where
  length : s.hpc = .waitLength .sleep → s.fileLength = 0
  chunk : s.hpc = .waitChunk .sleep → s.bytesWritten = 0
  slot : s.wpc = .waitSlot .sleep → s.bytesWritten ≠ 0

theorem windows_init (E : Env) : Windows (init E) :=
  ⟨by simp [init], by simp [init], by simp [init]⟩

section windows

variable {E : Env} {s s' : State} {w r : ℤ}

/-- Two sides do not hold one mutex. -/
theorem Locks.not_both {m : ℕ} (hL : Locks E s) (hh : s.hpc.holds E.proxy = some m)
    (hw : s.wpc.holds E.cache = some m) : False := by
  have h₁ := (hL.handler m).mpr hh
  have h₂ := (hL.worker m).mpr hw
  rw [h₁] at h₂
  cases h₂

theorem Windows.handlerStep (hsame : E.proxy = E.cache) (hI : Inv E s) (hL : Locks E s)
    (hW : Windows s) (h : handlerStep E s w = some s') : Windows s' := by
  have hempty := hI.empty_of_destroy
  have hH := hI.handler
  have hworker := hI.worker
  obtain ⟨hlength, hchunk, hslot⟩ := hW
  cases hp : s.hpc with
  | waitLength p =>
      simp only [Channel.handlerStep, hp, State.waitHandler, Option.map_eq_some_iff] at h
      obtain ⟨⟨op, q⟩, hw, rfl⟩ := h
      cases q with
      | none => exact ⟨by simp, by simp, hslot⟩
      | some q =>
          refine ⟨fun hq => ?_, by simp, hslot⟩
          cases hq
          simpa using Wait.failed_of_step_sleep hw
  | waitChunk p =>
      simp only [Channel.handlerStep, hp, State.waitHandler, Option.map_eq_some_iff] at h
      obtain ⟨⟨op, q⟩, hw, rfl⟩ := h
      cases q with
      | none => exact ⟨by simp, by simp, hslot⟩
      | some q =>
          refine ⟨by simp, fun hq => ?_, hslot⟩
          cases hq
          simpa using Wait.failed_of_step_sleep hw
  | createWritten =>
      simp only [Channel.handlerStep, hp, Option.some.injEq] at h
      subst h
      rw [hp] at hH
      rw [hH.1] at hworker
      have hg := hworker.get_of_unsent
      exact ⟨by simp, by simp, by simp [hg]⟩
  | clear =>
      simp only [Channel.handlerStep, hp, Option.some.injEq] at h
      subst h
      refine ⟨by simp, by simp, fun hw => ?_⟩
      -- the worker would hold the mutex under which the slot is cleared
      exact (hL.not_both (by rw [hp]; rfl)
        (by rw [show s.wpc = _ from hw, hsame]; rfl)).elim
  | broadcastLength | broadcastChunk =>
      simp only [Channel.handlerStep, hp, Option.some.injEq] at h
      subst h
      exact ⟨by simp, by simp, fun hw => hslot (WPc.waitSlot_of_wake hw rfl).1⟩
  | destroyWritten =>
      simp only [Channel.handlerStep, hp, Option.some.injEq] at h
      subst h
      exact ⟨by simp, by simp, fun hw => absurd (hempty hp) (hslot hw)⟩
  | branch =>
      simp only [Channel.handlerStep, hp] at h
      split at h <;> obtain rfl := Option.some.inj h <;> exact ⟨by simp, by simp, hslot⟩
  | loop =>
      simp only [Channel.handlerStep, hp, Option.some.injEq] at h
      subst h
      split <;> exact ⟨by simp, by simp, hslot⟩
  | send =>
      simp only [Channel.handlerStep, hp, State.gfsSend, Option.some.injEq] at h
      split at h <;> subst h <;> exact ⟨by simp, by simp, hslot⟩
  | reply =>
      simp only [Channel.handlerStep, hp, State.replyWith, Option.some.injEq] at h
      split at h <;> subst h <;> exact ⟨by simp, by simp, hslot⟩
  | returned | failed => simp [Channel.handlerStep, hp] at h
  | _ =>
      simp only [Channel.handlerStep, hp, Option.some.injEq] at h
      subst h
      exact ⟨by simp, by simp, hslot⟩

theorem Windows.workerStep (hsame : E.proxy = E.cache) (hL : Locks E s) (hW : Windows s)
    (h : workerStep E s r = some s') : Windows s' := by
  obtain ⟨hlength, hchunk, hslot⟩ := hW
  cases hp : s.wpc with
  | get | pread =>
      simp only [Channel.workerStep, hp, Option.ite_none_right_eq_some] at h
      obtain ⟨_, h⟩ := h
      obtain rfl := Option.some.inj h
      exact ⟨hlength, hchunk, by simp⟩
  | zeroLength =>
      simp only [Channel.workerStep, hp, Option.some.injEq] at h
      subst h
      exact ⟨fun _ => rfl, hchunk, by simp⟩
  | waitLength p =>
      simp only [Channel.workerStep, hp, State.waitWorker, Option.map_eq_some_iff] at h
      obtain ⟨⟨op, q⟩, hw, rfl⟩ := h
      cases q <;> exact ⟨hlength, hchunk, by simp⟩
  | setLength =>
      simp only [Channel.workerStep, hp, Option.some.injEq] at h
      subst h
      refine ⟨fun hh => ?_, hchunk, by simp⟩
      -- the handler would hold the mutex under which the length is stored
      exact (hL.not_both (by rw [show s.hpc = _ from hh]; rfl) (by rw [hp, hsame]; rfl)).elim
  | zeroWritten =>
      simp only [Channel.workerStep, hp, Option.some.injEq] at h
      subst h
      exact ⟨hlength, fun _ => rfl, by simp⟩
  | publish =>
      simp only [Channel.workerStep, hp, Option.some.injEq] at h
      subst h
      refine ⟨hlength, fun hh => ?_, by simp⟩
      exact (hL.not_both (by rw [show s.hpc = _ from hh]; rfl) (by rw [hp, hsame]; rfl)).elim
  | broadcastLength | signal =>
      simp only [Channel.workerStep, hp, Option.some.injEq] at h
      subst h
      exact ⟨fun hh => hlength (HPc.waitLength_of_wake hh rfl).1,
        fun hh => hchunk (HPc.waitChunk_of_wake hh rfl).1, by simp⟩
  | waitSlot p =>
      simp only [Channel.workerStep, hp, State.waitWorker, Option.map_eq_some_iff] at h
      obtain ⟨⟨op, q⟩, hw, rfl⟩ := h
      cases q with
      | none => exact ⟨hlength, hchunk, by simp⟩
      | some q =>
          refine ⟨hlength, hchunk, fun hq => ?_⟩
          cases hq
          simpa using Wait.failed_of_step_sleep hw
  | branch =>
      simp only [Channel.workerStep, hp] at h
      split at h <;> obtain rfl := Option.some.inj h <;> exact ⟨hlength, hchunk, by simp⟩
  | loop | checkLength =>
      simp only [Channel.workerStep, hp, Option.some.injEq] at h
      subst h
      split <;> exact ⟨hlength, hchunk, by simp⟩
  | finished | exited => simp [Channel.workerStep, hp] at h
  | _ =>
      simp only [Channel.workerStep, hp, Option.some.injEq] at h
      subst h
      exact ⟨hlength, hchunk, by simp⟩

theorem Windows.step {a : Act} (hsame : E.proxy = E.cache) (hI : Inv E s) (hL : Locks E s)
    (hW : Windows s) (h : step E s a = some s') : Windows s' := by
  cases a with
  | handler w => exact hW.handlerStep hsame hI hL h
  | worker r => exact hW.workerStep hsame hL h
  | spuriousHandler =>
      obtain rfl := Option.some.inj h
      exact ⟨fun hh => hW.length (HPc.waitLength_of_wake hh rfl).1,
        fun hh => hW.chunk (HPc.waitChunk_of_wake hh rfl).1, hW.slot⟩
  | spuriousWorker =>
      obtain rfl := Option.some.inj h
      exact ⟨hW.length, hW.chunk, fun hw => hW.slot (WPc.waitSlot_of_wake hw rfl).1⟩

theorem Reachable.windows {ok : State → Act → Prop} (hsame : E.proxy = E.cache)
    (h : Reachable E ok s) : Windows s :=
  have hJ : ∀ s, Reachable E ok s → Inv E s ∧ Locks E s := fun _ hr => ⟨hr.inv, hr.locks⟩
  h.invariant_of hJ (windows_init E) fun _ _ _ hJ hW _ hs => hW.step hsame hJ.1 hJ.2 hs

/-- Inside the windows nothing decisive is sent. -/
theorem Windows.heard (hW : Windows s) (a : Act) : Heard s a := by
  cases a with
  | handler w => exact fun _ hw => hW.slot hw
  | worker r =>
      refine ⟨fun _ hh => (hW.length hh).ge, fun _ hb => ⟨hW.length, fun hh => hb (hW.chunk hh)⟩⟩
  | spuriousHandler | spuriousWorker => trivial

end windows

/-- **One definition of the struct for both programs suffices**: then no wakeup is lost in any
run. -/
theorem no_lostWakeup_of_sameLayout (E : Env) (s : State) (hsame : E.proxy = E.cache)
    (h : Reachable E Any s) : ¬ s.LostWakeup :=
  have hheard : Reachable E Heard s :=
    h.strengthen fun _ a hr => (Reachable.windows hsame hr).heard a
  hheard.due.not_lost

end OsProjects.Channel
