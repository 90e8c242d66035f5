import OsProjects.Handshake
import OsProjects.Termination
import OsProjects.Wakeup

/-! # The exchange ends

Runs of the exchange with the waiting loops of pthreads, in which sends and reads do not fail and no
decisive wakeup falls into the window between a failed test and its sleep (`Clear`); threads may wake
without a signal.

* `State.left` — the steps that both sides have left; every chunk has at least a byte.
* `ended_of_still` — where neither side can go on, the handler has returned and the worker has
  finished.
* `exchange_ends` — how long such runs are, where they can stop, and that they can be continued to
  their end, for every file but the empty one. -/

namespace OsProjects.Channel

open Monitor Transition

/-- Nothing fails, and no decisive wakeup is missed. -/
def Clear (s : State) (a : Act) : Prop := Faultless s a ∧ Heard s a

/-- A clear step of a thread that has not just woken by itself. -/
def Calm (s : State) : Act → Prop
  | .handler w => Clear s (.handler w)
  | .worker r => Clear s (.worker r)
  | .spuriousHandler | .spuriousWorker => False

instance (s : State) (a : Act) : Decidable (Clear s a) := inferInstanceAs (Decidable (_ ∧ _))

/-- A spurious wakeup takes a step and makes a thread test again. -/
def Act.credit : Act → ℕ
  | .handler _ | .worker _ => 0
  | .spuriousHandler | .spuriousWorker => 4

theorem Calm.clear {s : State} {a : Act} (h : Calm s a) : Clear s a ∧ a.credit = 0 := by
  cases a with
  | handler w => exact ⟨h, rfl⟩
  | worker r => exact ⟨h, rfl⟩
  | spuriousHandler | spuriousWorker => exact h.elim

/-! ### The steps that are left -/

/-- The steps that the handler has left when `n` bytes are still to be sent. -/
def HPc.left (n : ℕ) : HPc → ℕ
  | createLength => 13 * n + 19
  | createWritten => 13 * n + 18
  | mqSend => 13 * n + 17
  | waitLength w => 13 * n + 13 + w.left
  | readLength => 13 * n + 12
  | unlockLength => 13 * n + 11
  | broadcastLength => 13 * n + 10
  | branch => 13 * n + 6
  | loop => 13 * n + 5
  | waitChunk w => 13 * n + 1 + w.left
  | readChunk => 13 * n + 2
  | send => 13 * n + 1
  | clear => 13 * n
  | unlockChunk => 13 * n + 11
  | broadcastChunk => 13 * n + 10
  | advance => 13 * n + 6
  | destroyLength => 4
  | destroyWritten => 3
  | release => 2
  | reply => 1
  | returned | failed => 0

/-- The steps that the worker has left when `n` bytes are still to be published. -/
def WPc.left (n : ℕ) : WPc → ℕ
  | get => 11 * n + 19
  | zeroLength => 11 * n + 18
  | checkLength => 11 * n + 17
  | waitLength w => 11 * n + 13 + w.left
  | setLength => 11 * n + 14
  | zeroWritten => 11 * n + 13
  | unlockLength => 11 * n + 12
  | broadcastLength => 11 * n + 11
  | branch => 11 * n + 7
  | loop => 11 * n + 6
  | waitSlot w => 11 * n + 2 + w.left
  | pread => 11 * n + 3
  | publish => 11 * n + 2
  | signal => 11 * n + 12
  | unlockSlot => 11 * n + 8
  | advance => 11 * n + 7
  | finished | exited => 0

theorem HPc.left_wake (n : ℕ) (p : HPc) : p.wake.left n ≤ p.left n + 3 := by
  cases p with
  | waitLength w | waitChunk w =>
      have hwake := w.left_wake
      simp only [wake, left]
      omega
  | _ => exact Nat.le_add_right _ _

theorem WPc.left_wake (n : ℕ) (p : WPc) : p.wake.left n ≤ p.left n + 3 := by
  cases p with
  | waitLength w | waitSlot w =>
      have hwake := w.left_wake
      simp only [wake, left]
      omega
  | _ => exact Nat.le_add_right _ _

/-- The steps that both sides have left. -/
def State.left (E : Env) (s : State) : ℕ :=
  s.hpc.left (E.fileLen - s.cleared).toNat + s.wpc.left (E.fileLen - s.published).toNat

section steps
variable {E : Env} {s s' : State} {w r : ℤ}

theorem State.published_wake (s : State) :
    State.published { s with wpc := s.wpc.wake } = s.published := by
  simp [State.published]

theorem State.cleared_wake (s : State) : State.cleared { s with hpc := s.hpc.wake } = s.cleared := by
  simp [State.cleared]

theorem left_lt_of_handler {p p' : HPc} (hp : s.hpc = p) (hp' : s'.hpc = p')
    (hsame : (s'.wpc, s'.wBytesWritten, s'.wReadLen) = (s.wpc, s.wBytesWritten, s.wReadLen))
    (hcleared : s'.cleared = s.cleared) (hlt : ∀ n, p'.left n < p.left n) :
    s'.left E < s.left E := by
  simp only [Prod.mk.injEq] at hsame
  obtain ⟨hwpc, hww, hwr⟩ := hsame
  have hlt := hlt (E.fileLen - s.cleared).toNat
  have hpublished : s'.published = s.published := by
    rw [State.published, State.published, hwpc, hww, hwr]
  unfold State.left
  rw [hpublished, hcleared, hwpc, hp, hp']
  omega

/-- A step of the worker that publishes nothing and wakes nobody. -/
theorem left_lt_of_worker {p p' : WPc} (hp : s.wpc = p) (hp' : s'.wpc = p')
    (hsame : (s'.hpc, s'.bytesTransferred, s'.writeLen) = (s.hpc, s.bytesTransferred, s.writeLen))
    (hpublished : s'.published = s.published) (hlt : ∀ n, p'.left n < p.left n) :
    s'.left E < s.left E := by
  simp only [Prod.mk.injEq] at hsame
  obtain ⟨hhpc, hbt, hwl⟩ := hsame
  have hlt := hlt (E.fileLen - s.published).toNat
  have hcleared : s'.cleared = s.cleared := by
    rw [State.cleared, State.cleared, hhpc, hbt, hwl]
  unfold State.left
  rw [hpublished, hcleared, hhpc, hp, hp']
  omega

theorem left_handlerStep (hsmall : E.contents.length < 2 ^ 31) (hI : Inv E s) (hF : Filled E s)
    (hw : Faultless s (.handler w)) (h : handlerStep E s w = some s') :
    s'.left E < s.left E := by
  have hH := hI.handler
  cases hp : s.hpc with
  | waitLength p | waitChunk p =>
      simp only [handlerStep, hp, State.waitHandler, Option.map_eq_some_iff] at h
      obtain ⟨⟨op, n⟩, hs, rfl⟩ := h
      have hleft := Wait.left_of_step hs
      cases n with
      | none =>
          refine left_lt_of_handler hp rfl rfl ?_ ?_
          · simp [State.cleared, hp, HPc.inflight]
          · intro m
            simp only [Option.elim, HPc.left] at hleft ⊢
            omega
      | some q =>
          refine left_lt_of_handler hp rfl rfl ?_ ?_
          · simp [State.cleared, hp, HPc.inflight]
          · intro m
            simp only [Option.elim, HPc.left] at hleft ⊢
            omega
  | broadcastLength | broadcastChunk =>
      simp only [handlerStep, hp, Option.some.injEq] at h
      subst h
      have hwake := s.wpc.left_wake (E.fileLen - s.published).toNat
      simp [State.left, State.cleared, State.published, hp, HPc.left, HPc.inflight] at hwake ⊢
      omega
  | send =>
      have hresult := hF.result_eq hsmall hI hp hw
      simp only [handlerStep, hp, State.gfsSend, hresult, ne_eq, not_true_eq_false, if_false,
        Option.some.injEq] at h
      subst h
      refine left_lt_of_handler hp rfl rfl ?_ ?_
      · simp [State.cleared, hp, HPc.inflight]
      · intro m
        simp only [HPc.left]
        omega
  | clear =>
      -- at least one byte has been sent
      simp only [handlerStep, hp, Option.some.injEq] at h
      subst h
      simp only [hp, HPc.Ok] at hH
      have hwritten := hF.written
      simp [State.left, State.cleared, State.published, hp, HPc.left, HPc.inflight]
      omega
  | branch =>
      simp only [handlerStep, hp] at h
      simp only [hp, HPc.Ok] at hH
      split at h <;> obtain rfl := Option.some.inj h <;> refine left_lt_of_handler hp rfl rfl ?_ ?_
      · simp [State.cleared, hp, HPc.inflight]
      · intro m
        simp only [HPc.left]
        omega
      · simp [State.cleared, hp, HPc.inflight, hH.2.2.2]
      · intro m
        simp only [HPc.left]
        omega
  | loop =>
      simp only [handlerStep, hp, Option.some.injEq] at h
      subst h
      refine left_lt_of_handler hp rfl rfl ?_ ?_
      · split <;> simp [State.cleared, hp, HPc.inflight]
      · intro m
        split
        · simp only [HPc.left, Wait.left]
          omega
        · simp only [HPc.left]
          omega
  | reply =>
      simp only [handlerStep, hp, State.replyWith, Option.some.injEq] at h
      split at h <;> subst h <;> refine left_lt_of_handler hp rfl rfl ?_ ?_
      · simp [State.cleared, hp, HPc.inflight]
      · intro m
        simp [HPc.left]
      · simp [State.cleared, hp, HPc.inflight]
      · intro m
        simp [HPc.left]
  | returned | failed => simp [handlerStep, hp] at h
  | _ =>
      simp only [handlerStep, hp, Option.some.injEq] at h
      subst h
      refine left_lt_of_handler hp rfl rfl ?_ ?_
      · simp [State.cleared, hp, HPc.inflight, State.unlock]
      · intro m
        simp only [HPc.left, Wait.left]
        omega

theorem left_workerStep (hI : Inv E s) (hF : Filled E s) (h : workerStep E s r = some s') :
    s'.left E < s.left E := by
  have hW := hI.worker
  cases hp : s.wpc with
  | waitLength p | waitSlot p =>
      simp only [workerStep, hp, State.waitWorker, Option.map_eq_some_iff] at h
      obtain ⟨⟨op, n⟩, hs, rfl⟩ := h
      have hleft := Wait.left_of_step hs
      cases n with
      | none =>
          refine left_lt_of_worker hp rfl rfl ?_ ?_
          · simp [State.published, hp, WPc.inflight]
          · intro m
            simp only [Option.elim, WPc.left] at hleft ⊢
            omega
      | some q =>
          refine left_lt_of_worker hp rfl rfl ?_ ?_
          · simp [State.published, hp, WPc.inflight]
          · intro m
            simp only [Option.elim, WPc.left] at hleft ⊢
            omega
  | broadcastLength | signal =>
      simp only [workerStep, hp, Option.some.injEq] at h
      subst h
      have hwake := s.hpc.left_wake (E.fileLen - s.cleared).toNat
      simp [State.left, State.cleared, State.published, hp, WPc.left, WPc.inflight] at hwake ⊢
      omega
  | get | pread =>
      simp only [workerStep, hp, Option.ite_none_right_eq_some] at h
      obtain ⟨_, h⟩ := h
      obtain rfl := Option.some.inj h
      refine left_lt_of_worker hp rfl rfl ?_ ?_
      · simp [State.published, hp, WPc.inflight]
      · intro m
        simp only [WPc.left]
        omega
  | publish =>
      -- at least one byte is published
      simp only [workerStep, hp, Option.some.injEq] at h
      subst h
      simp only [hp, WPc.Ok] at hW
      obtain ⟨hpos, _⟩ := hF.chunk hp
      simp [State.left, State.cleared, State.published, hp, WPc.left, WPc.inflight]
      omega
  | branch =>
      simp only [workerStep, hp] at h
      simp only [hp, WPc.Ok] at hW
      split at h <;> obtain rfl := Option.some.inj h <;> refine left_lt_of_worker hp rfl rfl ?_ ?_
      · simp [State.published, hp, WPc.inflight]
      · intro m
        simp only [WPc.left]
        omega
      · simp [State.published, hp, WPc.inflight, hW.2.2.2.2]
      · intro m
        simp only [WPc.left]
        omega
  | loop =>
      simp only [workerStep, hp, Option.some.injEq] at h
      subst h
      refine left_lt_of_worker hp rfl rfl ?_ ?_
      · split <;> simp [State.published, hp, WPc.inflight]
      · intro m
        split
        · simp only [WPc.left, Wait.left]
          omega
        · simp only [WPc.left]
          omega
  | checkLength =>
      simp only [workerStep, hp, Option.some.injEq] at h
      subst h
      refine left_lt_of_worker hp rfl rfl ?_ ?_
      · split <;> simp [State.published, hp, WPc.inflight]
      · intro m
        split
        · simp only [WPc.left]
          omega
        · simp only [WPc.left, Wait.left]
          omega
  | finished | exited => simp [workerStep, hp] at h
  | _ =>
      simp only [workerStep, hp, Option.some.injEq] at h
      subst h
      refine left_lt_of_worker hp rfl rfl ?_ ?_
      · simp [State.published, hp, WPc.inflight, State.unlock]
      · intro m
        simp only [WPc.left]
        omega

/-- `destroy_shm_seg` is over, also where the pool has been opened up. -/
theorem left_release (hp : s.hpc = .release) :
    State.left E { s with hpc := .reply } + 1 = s.left E := by
  simp [State.left, State.published, hp, HPc.left]
  omega

theorem left_of_wake_eq (h : s.hpc.wake = s.hpc) :
    State.left E { s with hpc := s.hpc.wake } = s.left E := by
  rw [h]

theorem left_wakeHandler (s : State) :
    State.left E { s with hpc := s.hpc.wake } ≤ s.left E + 3 := by
  have hwake := s.hpc.left_wake (E.fileLen - s.cleared).toNat
  simp only [State.left, State.cleared_wake] at hwake ⊢
  simp only [State.published]
  omega

theorem left_wakeWorker (s : State) :
    State.left E { s with wpc := s.wpc.wake } ≤ s.left E + 3 := by
  have hwake := s.wpc.left_wake (E.fileLen - s.published).toNat
  simp only [State.left, State.published_wake] at hwake ⊢
  simp only [State.cleared]
  omega

/-- **Every clear step is paid for.** -/
theorem left_step {a : Act} (hsmall : E.contents.length < 2 ^ 31) (hI : Inv E s) (hF : Filled E s)
    (ha : Faultless s a) (h : step E s a = some s') : s'.left E + 1 ≤ s.left E + a.credit := by
  cases a with
  | handler w => exact left_handlerStep hsmall hI hF ha h
  | worker r => exact left_workerStep hI hF h
  | spuriousHandler =>
      obtain rfl := Option.some.inj h
      exact Nat.succ_le_succ (left_wakeHandler s)
  | spuriousWorker =>
      obtain rfl := Option.some.inj h
      exact Nat.succ_le_succ (left_wakeWorker s)

end steps

/-! ### Where the exchange stops -/

section still
variable {E : Env} {s : State}

/-- What is known of the states of a clear run. -/
structure Sound (E : Env) (s : State) : Prop where
  inv : Inv E s
  filled : Filled E s
  locks : Locks E s
  due : Due E s

/-- Whoever would send a wakeup into a window can wait until the other side has fallen asleep. -/
theorem calm_of_canMove (h : CanMove E s) : ∃ a, Calm s a ∧ (step E s a).isSome = true := by
  have hsleepHandler : s.hpc = .waitLength .sleep ∨ s.hpc = .waitChunk .sleep →
      ∃ a, Calm s a ∧ (step E s a).isSome = true := by
    rintro (hp | hp)
    · exact ⟨.handler 0, ⟨by simp [Faultless, hp], by simp [Heard, hp]⟩,
        by simp [step, handlerStep, hp, State.waitHandler, Wait.step]⟩
    · exact ⟨.handler 0, ⟨by simp [Faultless, hp], by simp [Heard, hp]⟩,
        by simp [step, handlerStep, hp, State.waitHandler, Wait.step]⟩
  have hsleepWorker : s.wpc = .waitSlot .sleep → ∃ a, Calm s a ∧ (step E s a).isSome = true := by
    intro hp
    exact ⟨.worker 0, ⟨by simp [Faultless, hp], by simp [Heard, hp]⟩,
      by simp [step, workerStep, hp, State.waitWorker, Wait.step]⟩
  obtain ⟨w, hw, hsome⟩ | ⟨r, hr, hsome⟩ := h
  · by_cases hheard : Heard s (.handler w)
    · exact ⟨.handler w, ⟨hw, hheard⟩, hsome⟩
    · unfold Heard at hheard
      push Not at hheard
      exact hsleepWorker hheard.2.1
  · by_cases hheard : Heard s (.worker r)
    · exact ⟨.worker r, ⟨hr, hheard⟩, hsome⟩
    · unfold Heard at hheard
      apply hsleepHandler
      by_contra hno
      obtain ⟨hl, hc⟩ := not_or.mp hno
      exact hheard ⟨fun _ h => absurd h hl, fun _ _ => ⟨fun h => absurd h hl, hc⟩⟩

theorem canMove_awakeHandler (hmode : E.mode = .pthread) {v : Wait}
    (hp : s.hpc = .waitLength v ∨ s.hpc = .waitChunk v) (hv : v ≠ .asleep)
    (hfree : (∀ m, s.mutex m = none) ∨ v.holds = true) : CanMove E s := by
  refine .inl ⟨0, ?_, ?_⟩
  · obtain hp | hp := hp <;> simp [Faultless, hp]
  · have hsome : ∀ m ok, (v.step .pthread (s.mutex m).isNone ok).isSome = true := fun m ok =>
      Wait.step_isSome hv (hfree.imp_left fun hm => by rw [hm m]; rfl)
    obtain hp | hp := hp <;> simp [handlerStep, hp, State.waitHandler, hmode, hsome]

theorem canMove_awakeWorker (hmode : E.mode = .pthread) {v : Wait}
    (hp : s.wpc = .waitLength v ∨ s.wpc = .waitSlot v) (hv : v ≠ .asleep)
    (hfree : (∀ m, s.mutex m = none) ∨ v.holds = true) : CanMove E s := by
  refine .inr ⟨0, ?_, ?_⟩
  · obtain hp | hp := hp <;> simp [Faultless, hp]
  · have hsome : ∀ m ok, (v.step .pthread (s.mutex m).isNone ok).isSome = true := fun m ok =>
      Wait.step_isSome hv (hfree.imp_left fun hm => by rw [hm m]; rfl)
    obtain hp | hp := hp <;> simp [workerStep, hp, State.waitWorker, hmode, hsome]

/-- Where neither side can go on, the handler is outside of its mutex in a wait, or has returned. -/
theorem Sound.handler_waits (hS : Sound E s) (hmode : E.mode = .pthread) (hno : ¬CanMove E s) :
    (∃ v, (s.hpc = .waitLength v ∨ s.hpc = .waitChunk v) ∧ v.holds = false) ∨
      s.hpc = .returned := by
  have hholds : ∀ v, s.hpc = .waitLength v ∨ s.hpc = .waitChunk v → v.holds = false := by
    intro v hp
    by_contra hh
    rw [Bool.not_eq_false] at hh
    have hv : v ≠ .asleep := by
      rintro rfl
      cases hh
    exact hno (canMove_awakeHandler hmode hp hv (.inr hh))
  cases hp : s.hpc with
  | waitLength v => exact .inl ⟨v, .inl rfl, hholds v (.inl hp)⟩
  | waitChunk v => exact .inl ⟨v, .inr rfl, hholds v (.inr hp)⟩
  | returned => exact .inr rfl
  | failed => exact absurd hp hS.filled.alive
  | _ =>
      exact absurd (canMove_handler (by simp [hp]) (by simp [hp]) (by simp [State.Returned, hp])) hno

/-- Where neither side can go on, the worker is outside of its mutex in a wait, or has finished. -/
theorem Sound.worker_waits (hS : Sound E s) (hmode : E.mode = .pthread)
    (hsmall : E.contents.length < 2 ^ 31) (hcap : 1 ≤ E.segmentSize - E.sizeofShmData - 1)
    (hno : ¬CanMove E s) (hsent : s.sent = true) :
    (∃ v, (s.wpc = .waitLength v ∨ s.wpc = .waitSlot v) ∧ v.holds = false) ∨
      s.wpc = .finished := by
  have hholds : ∀ v, s.wpc = .waitLength v ∨ s.wpc = .waitSlot v → v.holds = false := by
    intro v hp
    by_contra hh
    rw [Bool.not_eq_false] at hh
    have hv : v ≠ .asleep := by
      rintro rfl
      cases hh
    exact hno (canMove_awakeWorker hmode hp hv (.inr hh))
  have hW := hS.inv.worker
  cases hp : s.wpc with
  | waitLength v => exact .inl ⟨v, .inl rfl, hholds v (.inl hp)⟩
  | waitSlot v => exact .inl ⟨v, .inr rfl, hholds v (.inr hp)⟩
  | finished => exact .inr rfl
  | exited =>
      rw [hp] at hW
      exact hW.elim
  | _ =>
      exact absurd (canMove_worker hsmall hcap hS.inv hS.filled hsent (by simp [hp]) (by simp [hp])
        (by simp [hp]) (by simp [hp])) hno

/-- Once the handler waits for the worker, or has returned, its message has been sent. -/
theorem Sound.sent_of_waits (hS : Sound E s)
    (h : (∃ v, s.hpc = .waitLength v ∨ s.hpc = .waitChunk v) ∨ s.hpc = .returned) :
    s.sent = true := by
  have hH := hS.inv.handler
  obtain ⟨v, hp | hp⟩ | hp := h <;> rw [hp] at hH <;> exact hH.1

/-- Two sides that sleep or have ended have ended: a sleeper has a wakeup due. -/
theorem Sound.ended_of_asleep (hS : Sound E s) (hsmall : E.contents.length < 2 ^ 31)
    (hfile : E.file ≠ some [])
    (hh : (s.hpc = .waitLength .asleep ∨ s.hpc = .waitChunk .asleep) ∨ s.hpc = .returned)
    (hw : (s.wpc = .waitLength .asleep ∨ s.wpc = .waitSlot .asleep) ∨ s.wpc = .finished) :
    s.hpc = .returned ∧ s.wpc = .finished := by
  have hF := Env.fileLen_ne_zero hsmall hfile
  have hH := hS.inv.handler
  have hW := hS.inv.worker
  have hcount := hS.inv.count
  have hpending := hS.inv.pending
  obtain ⟨hlength, hchunk, hslot, hworker⟩ := hS.due
  rcases hw with (hw | hw) | hw
  · exact absurd rfl (hworker .asleep hw)
  · -- the slot is full, as its worker has no wakeup due
    have hfull : s.bytesWritten ≠ 0 := by
      intro hempty
      have hdue := hslot .asleep hw rfl hempty
      rcases hh with (hh | hh) | hh <;> rw [hh] at hdue <;> rcases hdue with hdue | hdue <;> cases hdue
    rcases hh with (hh | hh) | hh
    · simp only [hh, hw, HPc.lengthGone, WPc.Ok] at hW
      have hdue := hlength .asleep hh rfl (by rw [hW.2.2.1 trivial]; exact hF)
      rw [hw] at hdue
      exact hdue.elim
    · have hdue := hchunk .asleep hh rfl hfull
      rw [hw] at hdue
      cases hdue
    · have hlt := hpending hfull
      simp only [State.cleared, hh, HPc.inflight, HPc.Ok, cond_false] at hlt hH
      omega
  · rcases hh with (hh | hh) | hh
    · simp only [hh, hw, HPc.lengthGone, WPc.Ok] at hW
      have hdue := hlength .asleep hh rfl (by rw [hW.2.2.1 trivial]; exact hF)
      rw [hw] at hdue
      exact hdue.elim
    · -- everything is published, so the slot is full
      simp only [hw, WPc.Ok] at hW
      simp only [hh, HPc.Ok] at hH
      simp only [State.cleared, State.published, hh, hw, HPc.inflight, WPc.inflight,
        cond_false] at hcount
      have hdue := hchunk .asleep hh rfl (by omega)
      rw [hw] at hdue
      cases hdue
    · exact ⟨hh, hw⟩

/-- **No deadlock**: where neither side can go on, the handler has returned and the worker has
finished. -/
theorem Sound.ended_of_still (hS : Sound E s) (hmode : E.mode = .pthread)
    (hsmall : E.contents.length < 2 ^ 31) (hcap : 1 ≤ E.segmentSize - E.sizeofShmData - 1)
    (hfile : E.file ≠ some []) (hstill : ∀ a, Calm s a → step E s a = none) :
    s.hpc = .returned ∧ s.wpc = .finished := by
  have hno : ¬CanMove E s := by
    intro hmove
    obtain ⟨a, ha, hsome⟩ := calm_of_canMove hmove
    rw [hstill a ha] at hsome
    cases hsome
  have hh := hS.handler_waits hmode hno
  have hsent : s.sent = true := by
    refine hS.sent_of_waits (hh.imp_left fun hwait => ?_)
    obtain ⟨v, hp, _⟩ := hwait
    exact ⟨v, hp⟩
  have hw := hS.worker_waits hmode hsmall hcap hno hsent
  -- nobody holds a mutex, so whoever waits is asleep
  have hfree : ∀ m, s.mutex m = none := by
    apply hS.locks.free
    · rcases hh with ⟨v, hp | hp, hv⟩ | hp
      · simp [hp, HPc.holds, Wait.held, hv]
      · simp [hp, HPc.holds, Wait.held, hv]
      · simp [hp, HPc.holds]
    · rcases hw with ⟨v, hp | hp, hv⟩ | hp
      · simp [hp, WPc.holds, Wait.held, hv]
      · simp [hp, WPc.holds, Wait.held, hv]
      · simp [hp, WPc.holds]
  apply hS.ended_of_asleep hsmall hfile
  · refine hh.imp_left fun hwait => ?_
    obtain ⟨v, hp, _⟩ := hwait
    obtain rfl : v = .asleep := by
      by_contra hv
      exact hno (canMove_awakeHandler hmode hp hv (.inl hfree))
    exact hp
  · refine hw.imp_left fun hwait => ?_
    obtain ⟨v, hp, _⟩ := hwait
    obtain rfl : v = .asleep := by
      by_contra hv
      exact hno (canMove_awakeWorker hmode hp hv (.inl hfree))
    exact hp

end still

/-! ### Runs -/

section runs
variable {E : Env} {s : State}

theorem Reachable.sound (hsmall : E.contents.length < 2 ^ 31)
    (hcap : 1 ≤ E.segmentSize - E.sizeofShmData - 1) (h : Reachable E Clear s) : Sound E s := by
  have hfaultless : Reachable E Faultless s := h.imp fun _ _ _ ha => ha.1
  have hheard : Reachable E Heard s := h.imp fun _ _ _ ha => ha.2
  exact ⟨h.inv, hfaultless.filled hsmall hcap, h.locks, hheard.due⟩

theorem pays_left (hsmall : E.contents.length < 2 ^ 31)
    (hcap : 1 ≤ E.segmentSize - E.sizeofShmData - 1) :
    Pays (step E) Clear (init E) (State.left E) (fun _ => 0) Act.credit := by
  intro s a s' hr ha hs
  have hS := Reachable.sound hsmall hcap hr
  exact left_step hsmall hS.inv hS.filled ha.1 hs

theorem left_init (E : Env) : (init E).left E = 24 * E.fileLen.toNat + 38 := by
  simp [State.left, init, State.cleared, State.published, HPc.left, WPc.left, HPc.inflight,
    WPc.inflight]
  omega

/-- **The exchange ends**: for every file that an `int` can measure except the empty one, and in
every interleaving in which nothing fails and no decisive wakeup is missed, a run has at most 24
steps for each byte, 38 more, and four for each spurious wakeup; without spurious wakeups it can stop
only where the handler has returned and the worker has finished, and it can be continued until
then. -/
theorem exchange_ends (E : Env) (hmode : E.mode = .pthread) (hsmall : E.contents.length < 2 ^ 31)
    (hcap : 1 ≤ E.segmentSize - E.sizeofShmData - 1) (hfile : E.file ≠ some []) (as : List Act)
    (s : State) (h : exec (step E) (init E) as = some s) (hok : Along (step E) Clear (init E) as) :
    as.length ≤ 24 * E.contents.length + 38 + (as.map Act.credit).sum ∧
    ((∀ a, Calm s a → step E s a = none) ↔ s.hpc = .returned ∧ s.wpc = .finished) ∧
    ∃ bs t, exec (step E) s bs = some t ∧ Along (step E) Calm s bs ∧
      t.hpc = .returned ∧ t.wpc = .finished := by
  have hr : Reachable E Clear s := reach_of_along as h hok
  have hpays := pays_left hsmall hcap
  have hstill : ∀ {t}, Reachable E Clear t → Stuck (step E) Calm t →
      t.hpc = .returned ∧ t.wpc = .finished :=
    fun ht hs => (Reachable.sound hsmall hcap ht).ended_of_still hmode hsmall hcap hfile hs
  refine ⟨?_, ⟨hstill hr, ?_⟩, ?_⟩
  · have hle := hpays.length_le .refl as h hok
    have hlen := Env.fileLen_le hsmall
    rw [left_init] at hle
    omega
  · rintro ⟨hh, hw⟩ a ha
    cases a with
    | handler w => simp [step, handlerStep, hh]
    | worker r => simp [step, workerStep, hw]
    | spuriousHandler | spuriousWorker => exact ha.elim
  · have hlowers : Lowers (step E) Calm s (State.left E) :=
      hpays.lowers hr (fun _ _ ha => ha.clear) fun _ _ _ _ _ => rfl
    obtain ⟨bs, t, hbs, hcalm, ht⟩ := hlowers.exists_stuck .refl
    have hrt := hr.trans ((reach_of_along bs hbs hcalm).imp fun _ _ _ ha => ha.clear.1)
    exact ⟨bs, t, hbs, hcalm, hstill hrt ht⟩

/-- The handler has sent its message and sleeps; the worker has published the first byte. -/
def sleepingRun : List Act := List.replicate 6 (.handler 1) ++ List.replicate 16 (.worker 1)

def sleepingEnd : State := (exec (step twoBytes) (init twoBytes) sleepingRun).getD (init twoBytes)

theorem exchange_ends_twoBytes : sleepingEnd.hpc = .waitLength .woken ∧
    ∃ bs t, exec (step twoBytes) sleepingEnd bs = some t ∧ Along (step twoBytes) Calm sleepingEnd bs ∧
      t.hpc = .returned ∧ t.wpc = .finished :=
  ⟨by decide +kernel, (exchange_ends twoBytes rfl (by decide) (by decide) (by decide) sleepingRun
    sleepingEnd rfl (along_of_execOk sleepingRun (by decide +kernel))).2.2⟩

end runs

end OsProjects.Channel
