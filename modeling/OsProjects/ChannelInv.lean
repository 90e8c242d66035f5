import OsProjects.Channel

/-! # Proof outline of the exchange

Each program point of the two sides carries an assertion (`HPc.Ok`, `WPc.Ok`) about the locals
of its side and the shared fields; `Inv` joins the two assertions with the byte count that
ties the sides together:

    bytes published = bytes cleared + mem->bytes_written.

The assertions hold whatever `pread` and `gfs_send` return, for every layout of the mutexes and
in both readings of the waiting loops (`Inv.step`): the exchange is ordered by the two fields
alone.  Most steps concern one side alone (`Inv.handler_alone`, `Inv.worker_alone`); the sides meet
where the message is sent, where the length is stored, seen and reset, and where a chunk is
published and cleared.  `Locks` is the companion for the mutexes: each is held exactly by the side
whose program point says so. -/

namespace OsProjects.Channel

open Monitor Transition

/-! ### Phases -/

namespace HPc

/-- The file length has not been seen yet. -/
def early : HPc → Bool
  | createLength | createWritten | mqSend | waitLength _ => true
  | _ => false

/-- `destroy_shm_seg` has reset `mem->file_length`. -/
def lengthGone : HPc → Bool
  | destroyWritten | release | reply | returned => true
  | _ => false

/-- A chunk is cleared but not yet added to `bytes_transferred`. -/
def inflight : HPc → Bool
  | unlockChunk | broadcastChunk | advance => true
  | _ => false

/-- A wakeup moves nobody outside of the waiting loops. -/
@[simp] theorem wake_eq_iff {p q : HPc} (hl : ∀ w, q ≠ waitLength w) (hc : ∀ w, q ≠ waitChunk w) :
    p.wake = q ↔ p = q := by
  cases p with
  | waitLength w => exact ⟨fun h => (hl _ h.symm).elim, fun h => (hl _ h.symm).elim⟩
  | waitChunk w => exact ⟨fun h => (hc _ h.symm).elim, fun h => (hc _ h.symm).elim⟩
  | _ => rfl

@[simp] theorem early_wake (p : HPc) : p.wake.early = p.early := by cases p <;> rfl
@[simp] theorem lengthGone_wake (p : HPc) : p.wake.lengthGone = p.lengthGone := by cases p <;> rfl
@[simp] theorem inflight_wake (p : HPc) : p.wake.inflight = p.inflight := by cases p <;> rfl

end HPc

namespace WPc

/-- The file length has not been published yet. -/
def early : WPc → Bool
  | get | zeroLength | checkLength | waitLength _ | setLength => true
  | _ => false

/-- A chunk is published but not yet added to the worker's `bytes_written`. -/
def inflight : WPc → Bool
  | signal | unlockSlot | advance => true
  | _ => false

@[simp] theorem wake_eq_iff {p q : WPc} (hl : ∀ w, q ≠ waitLength w) (hs : ∀ w, q ≠ waitSlot w) :
    p.wake = q ↔ p = q := by
  cases p with
  | waitLength w => exact ⟨fun h => (hl _ h.symm).elim, fun h => (hl _ h.symm).elim⟩
  | waitSlot w => exact ⟨fun h => (hs _ h.symm).elim, fun h => (hs _ h.symm).elim⟩
  | _ => rfl

@[simp] theorem early_wake (p : WPc) : p.wake.early = p.early := by cases p <;> rfl
@[simp] theorem inflight_wake (p : WPc) : p.wake.inflight = p.inflight := by cases p <;> rfl

end WPc

/-- Bytes of all chunks published in `mem->bytes_written`. -/
def State.published (s : State) : ℤ :=
  s.wBytesWritten + bif s.wpc.inflight then s.wReadLen else 0

/-- Bytes of all chunks taken out of `mem->bytes_written`. -/
def State.cleared (s : State) : ℤ :=
  s.bytesTransferred + bif s.hpc.inflight then s.writeLen else 0

/-! ### Assertions -/

/-- What holds at a program point of the handler; `F` is the file length that the worker
announces. -/
def HPc.Ok (F : ℤ) (sent wEarly : Bool)
    (bytesWritten fileLen bytesTransferred readLen writeLen : ℤ) : HPc → Prop
  | createLength | createWritten | mqSend => sent = false ∧ bytesTransferred = 0
  | waitLength _ => sent = true ∧ bytesTransferred = 0
  | readLength => sent = true ∧ wEarly = false ∧ bytesTransferred = 0
  | unlockLength | broadcastLength | branch =>
      sent = true ∧ wEarly = false ∧ fileLen = F ∧ bytesTransferred = 0
  | loop | failed => sent = true ∧ wEarly = false ∧ fileLen = F
  | waitChunk _ | unlockChunk | broadcastChunk | advance =>
      sent = true ∧ wEarly = false ∧ fileLen = F ∧ bytesTransferred < F
  | readChunk =>
      sent = true ∧ wEarly = false ∧ fileLen = F ∧ bytesTransferred < F ∧ bytesWritten ≠ 0
  | send =>
      sent = true ∧ wEarly = false ∧ fileLen = F ∧ bytesTransferred < F ∧ bytesWritten ≠ 0 ∧
        readLen = bytesWritten
  | clear =>
      sent = true ∧ wEarly = false ∧ fileLen = F ∧ bytesTransferred < F ∧ bytesWritten ≠ 0 ∧
        readLen = bytesWritten ∧ writeLen = readLen
  | destroyLength | destroyWritten | release | reply | returned =>
      sent = true ∧ wEarly = false ∧ fileLen = F ∧ F ≤ bytesTransferred

/-- What holds at a program point of the worker. -/
def WPc.Ok (F : ℤ) (sent hEarly hGone : Bool)
    (fileLength bytesWritten wFileLen wBytesWritten : ℤ) : WPc → Prop
  | get => fileLength = 0 ∧ bytesWritten = 0 ∧ hEarly = true ∧ wBytesWritten = 0
  | zeroLength | checkLength | waitLength _ | setLength =>
      sent = true ∧ wFileLen = F ∧ fileLength = 0 ∧ bytesWritten = 0 ∧ hEarly = true ∧
        wBytesWritten = 0
  | zeroWritten | unlockLength | broadcastLength | branch =>
      sent = true ∧ wFileLen = F ∧ (hGone = false → fileLength = F) ∧ bytesWritten = 0 ∧
        wBytesWritten = 0
  | loop => sent = true ∧ wFileLen = F ∧ (hGone = false → fileLength = F)
  | waitSlot _ | signal | unlockSlot | advance =>
      sent = true ∧ wFileLen = F ∧ (hGone = false → fileLength = F) ∧ wBytesWritten < F
  | pread | publish =>
      sent = true ∧ wFileLen = F ∧ (hGone = false → fileLength = F) ∧ wBytesWritten < F ∧
        bytesWritten = 0
  | finished =>
      sent = true ∧ wFileLen = F ∧ (hGone = false → fileLength = F) ∧ F ≤ wBytesWritten
  | exited => False

/-- The proof outline. -/
structure Inv (E : Env) (s : State) : Prop where
  handler : s.hpc.Ok E.fileLen s.sent s.wpc.early s.bytesWritten s.fileLen s.bytesTransferred
    s.readLen s.writeLen
  worker : s.wpc.Ok E.fileLen s.sent s.hpc.early s.hpc.lengthGone s.fileLength s.bytesWritten
    s.wFileLen s.wBytesWritten
  /-- The byte count. -/
  count : s.cleared + s.bytesWritten = s.published
  /-- A chunk in the segment belongs to a transfer that is not complete. -/
  pending : s.bytesWritten ≠ 0 → s.cleared < E.fileLen

/-! ### Interference -/

section interference
variable {F : ℤ} {sent wEarly hEarly hGone : Bool}
  {fileLength bytesWritten fileLen bytesTransferred readLen writeLen wFileLen wBytesWritten : ℤ}

@[simp] theorem HPc.Ok_wake (p : HPc) :
    p.wake.Ok F sent wEarly bytesWritten fileLen bytesTransferred readLen writeLen ↔
      p.Ok F sent wEarly bytesWritten fileLen bytesTransferred readLen writeLen := by
  cases p <;> rfl

@[simp] theorem WPc.Ok_wake (p : WPc) :
    p.wake.Ok F sent hEarly hGone fileLength bytesWritten wFileLen wBytesWritten ↔
      p.Ok F sent hEarly hGone fileLength bytesWritten wFileLen wBytesWritten := by
  cases p <;> rfl

/-- The worker fills the empty slot: no program point of the handler relies on it being
empty. -/
theorem HPc.Ok.fill {p : HPc} (b : ℤ)
    (h : p.Ok F sent wEarly 0 fileLen bytesTransferred readLen writeLen) :
    p.Ok F sent wEarly b fileLen bytesTransferred readLen writeLen := by
  cases p <;> simp_all [HPc.Ok]

/-- The worker publishes the length while the handler has not seen it. -/
theorem HPc.Ok.publishLength {p : HPc} (he : p.early = true)
    (h : p.Ok F sent wEarly bytesWritten fileLen bytesTransferred readLen writeLen) :
    p.Ok F sent false bytesWritten fileLen bytesTransferred readLen writeLen := by
  cases p <;> simp_all [HPc.Ok, HPc.early]

/-- The handler empties the slot. -/
theorem WPc.Ok.clear {p : WPc}
    (h : p.Ok F sent hEarly hGone fileLength bytesWritten wFileLen wBytesWritten) :
    p.Ok F sent hEarly hGone fileLength 0 wFileLen wBytesWritten := by
  cases p <;> simp_all [WPc.Ok]

/-- Once the length is published, the worker relies neither on the handler's early phase nor,
after `destroy_shm_seg`, on `mem->file_length`. -/
theorem WPc.Ok.of_late {p : WPc} (hEarly' hGone' : Bool) (fileLength' : ℤ)
    (hp : p.early = false)
    (h : p.Ok F sent hEarly hGone fileLength bytesWritten wFileLen wBytesWritten)
    (hl : hGone' = false → hGone = false ∧ fileLength' = fileLength) :
    p.Ok F sent hEarly' hGone' fileLength' bytesWritten wFileLen wBytesWritten := by
  cases p <;> simp_all [WPc.Ok, WPc.early]

theorem WPc.Ok.get_of_unsent {p : WPc}
    (h : p.Ok F false hEarly hGone fileLength bytesWritten wFileLen wBytesWritten) :
    p = .get := by
  cases p <;> simp_all [WPc.Ok]

/-- The message being sent changes nothing for a worker that waits for it. -/
theorem WPc.Ok.mqSend {p : WPc}
    (h : p.Ok F sent hEarly hGone fileLength bytesWritten wFileLen wBytesWritten) :
    p.Ok F true hEarly hGone fileLength bytesWritten wFileLen wBytesWritten := by
  cases p <;> simp_all [WPc.Ok]

theorem WPc.Ok.late_of_length {p : WPc} (hl : fileLength ≠ 0)
    (h : p.Ok F sent hEarly hGone fileLength bytesWritten wFileLen wBytesWritten) :
    p.early = false := by
  cases p <;> simp_all [WPc.Ok, WPc.early]

theorem WPc.Ok.length_of_late {p : WPc} (hp : p.early = false)
    (h : p.Ok F sent hEarly false fileLength bytesWritten wFileLen wBytesWritten) :
    fileLength = F := by
  cases p <;> simp_all [WPc.Ok, WPc.early]

end interference

theorem inv_init (E : Env) : Inv E (init E) where
  handler := by simp [init, HPc.Ok]
  worker := by simp [init, WPc.Ok, HPc.early]
  count := by simp [init, State.published, State.cleared, WPc.inflight, HPc.inflight]
  pending := by simp [init]

/-- At the end of the handler everything is sent, so the slot is empty already. -/
theorem Inv.empty_of_destroy {E : Env} {s : State} (hI : Inv E s) (hp : s.hpc = .destroyWritten) :
    s.bytesWritten = 0 := by
  by_contra hne
  have hP := hI.pending hne
  have hH := hI.handler
  simp only [hp, HPc.Ok, State.cleared, HPc.inflight, cond_false] at hH hP
  omega

/-- The slot is empty where the handler resets it at the two ends of its call. -/
theorem Inv.empty_of_reset {E : Env} {s : State} (hI : Inv E s)
    (hp : s.hpc = .createWritten ∨ s.hpc = .destroyWritten) : s.bytesWritten = 0 := by
  rcases hp with hp | hp
  · have hH := hI.handler
    have hW := hI.worker
    simp only [hp, HPc.Ok] at hH
    rw [hH.1] at hW
    have hg := hW.get_of_unsent
    simp only [hg, WPc.Ok] at hW
    exact hW.2.1
  · exact hI.empty_of_destroy hp

/-! ### Steps of one side alone -/

section alone
variable {E : Env} {s s' : State}

/-- What the handler does not change on its own: the locals of the worker and the shared fields. -/
structure WorkerView where
  wpc : WPc
  wFileLen : ℤ
  wBytesWritten : ℤ
  wReadLen : ℤ
  sent : Bool
  fileLength : ℤ
  bytesWritten : ℤ

def State.workerView (s : State) : WorkerView :=
  ⟨s.wpc, s.wFileLen, s.wBytesWritten, s.wReadLen, s.sent, s.fileLength, s.bytesWritten⟩

/-- What the worker does not change on its own: the locals of the handler and the shared fields. -/
structure HandlerView where
  hpc : HPc
  fileLen : ℤ
  bytesTransferred : ℤ
  readLen : ℤ
  writeLen : ℤ
  sent : Bool
  fileLength : ℤ
  bytesWritten : ℤ

def State.handlerView (s : State) : HandlerView :=
  ⟨s.hpc, s.fileLen, s.bytesTransferred, s.readLen, s.writeLen, s.sent, s.fileLength,
    s.bytesWritten⟩

/-- The handler moves inside a phase and clears nothing. -/
theorem Inv.handler_alone {p : HPc} (hI : Inv E s) (hp : s.hpc = p)
    (hv : s'.workerView = s.workerView)
    (hphase : s'.hpc.early = p.early ∧ s'.hpc.lengthGone = p.lengthGone)
    (hcleared : s'.cleared = s.bytesTransferred + bif p.inflight then s.writeLen else 0)
    (hH : s'.hpc.Ok E.fileLen s.sent s.wpc.early s.bytesWritten s'.fileLen s'.bytesTransferred
      s'.readLen s'.writeLen) : Inv E s' := by
  obtain ⟨hwpc, hwfl, hwbw, hwrl, hsent, hfl, hbw⟩ := WorkerView.mk.inj hv
  subst hp
  have hcleared : s'.cleared = s.cleared := hcleared
  have hpublished : s'.published = s.published := by
    rw [State.published, State.published, hwpc, hwbw, hwrl]
  constructor
  · rw [hsent, hwpc, hbw]
    exact hH
  · rw [hwpc, hwfl, hwbw, hsent, hfl, hbw, hphase.1, hphase.2]
    exact hI.worker
  · rw [hcleared, hbw, hpublished]
    exact hI.count
  · rw [hcleared, hbw]
    exact hI.pending

/-- The worker moves inside a phase and publishes nothing. -/
theorem Inv.worker_alone {p : WPc} (hI : Inv E s) (hp : s.wpc = p)
    (hv : s'.handlerView = s.handlerView) (hphase : s'.wpc.early = p.early)
    (hpublished : s'.published = s.wBytesWritten + bif p.inflight then s.wReadLen else 0)
    (hW : s'.wpc.Ok E.fileLen s.sent s.hpc.early s.hpc.lengthGone s.fileLength s.bytesWritten
      s'.wFileLen s'.wBytesWritten) : Inv E s' := by
  obtain ⟨hhpc, hhfl, hbt, hrl, hwl, hsent, hfl, hbw⟩ := HandlerView.mk.inj hv
  subst hp
  have hpublished : s'.published = s.published := hpublished
  have hcleared : s'.cleared = s.cleared := by
    rw [State.cleared, State.cleared, hhpc, hbt, hwl]
  constructor
  · rw [hhpc, hhfl, hbt, hrl, hwl, hsent, hbw, hphase]
    exact hI.handler
  · rw [hhpc, hsent, hfl, hbw]
    exact hW
  · rw [hcleared, hbw, hpublished]
    exact hI.count
  · rw [hcleared, hbw]
    exact hI.pending

theorem Inv.wakeHandler (hI : Inv E s) : Inv E { s with hpc := s.hpc.wake } := by
  obtain ⟨hH, hW, hC, hP⟩ := hI
  exact ⟨by simpa using hH, by simpa using hW, by simpa [State.published, State.cleared] using hC,
    by simpa [State.cleared] using hP⟩

theorem Inv.wakeWorker (hI : Inv E s) : Inv E { s with wpc := s.wpc.wake } := by
  obtain ⟨hH, hW, hC, hP⟩ := hI
  exact ⟨by simpa using hH, by simpa using hW, by simpa [State.published, State.cleared] using hC,
    by simpa [State.cleared] using hP⟩

end alone

/-! ### What a step leaves to the other side -/

/-- The handler leaves the worker's locals and the data area alone, and moves the worker by a
wakeup at most. -/
theorem handlerStep_frame {E : Env} {s s' : State} {w : ℤ} (h : handlerStep E s w = some s') :
    (s'.wFileLen = s.wFileLen ∧ s'.wBytesWritten = s.wBytesWritten ∧
      s'.wReadLen = s.wReadLen ∧ s'.data = s.data) ∧
    (s'.wpc = s.wpc ∨ s'.wpc = s.wpc.wake) := by
  cases hp : s.hpc with
  | waitLength p | waitChunk p =>
      simp only [handlerStep, hp, State.waitHandler, Option.map_eq_some_iff] at h
      obtain ⟨_, _, rfl⟩ := h
      exact ⟨⟨rfl, rfl, rfl, rfl⟩, .inl rfl⟩
  | branch =>
      simp only [handlerStep, hp] at h
      split at h <;> obtain rfl := Option.some.inj h <;> exact ⟨⟨rfl, rfl, rfl, rfl⟩, .inl rfl⟩
  | send =>
      simp only [handlerStep, hp, State.gfsSend, Option.some.injEq] at h
      split at h <;> subst h <;> exact ⟨⟨rfl, rfl, rfl, rfl⟩, .inl rfl⟩
  | reply =>
      simp only [handlerStep, hp, State.replyWith, Option.some.injEq] at h
      split at h <;> subst h <;> exact ⟨⟨rfl, rfl, rfl, rfl⟩, .inl rfl⟩
  | broadcastLength | broadcastChunk =>
      simp only [handlerStep, hp, Option.some.injEq] at h
      subst h
      exact ⟨⟨rfl, rfl, rfl, rfl⟩, .inr rfl⟩
  | returned | failed => simp [handlerStep, hp] at h
  | _ =>
      simp only [handlerStep, hp, Option.some.injEq] at h
      subst h
      exact ⟨⟨rfl, rfl, rfl, rfl⟩, .inl rfl⟩

/-- The worker leaves the handler's locals and reports alone, and moves the handler by a wakeup at
most. -/
theorem workerStep_frame {E : Env} {s s' : State} {r : ℤ} (h : workerStep E s r = some s') :
    (s'.bytesTransferred = s.bytesTransferred ∧ s'.headers = s.headers ∧ s'.sends = s.sends ∧
      s'.ret = s.ret) ∧
    (s'.hpc = s.hpc ∨ s'.hpc = s.hpc.wake) := by
  cases hp : s.wpc with
  | waitLength p | waitSlot p =>
      simp only [workerStep, hp, State.waitWorker, Option.map_eq_some_iff] at h
      obtain ⟨_, _, rfl⟩ := h
      exact ⟨⟨rfl, rfl, rfl, rfl⟩, .inl rfl⟩
  | get | pread =>
      simp only [workerStep, hp, Option.ite_none_right_eq_some] at h
      obtain ⟨_, h⟩ := h
      obtain rfl := Option.some.inj h
      exact ⟨⟨rfl, rfl, rfl, rfl⟩, .inl rfl⟩
  | branch =>
      simp only [workerStep, hp] at h
      split at h <;> obtain rfl := Option.some.inj h <;> exact ⟨⟨rfl, rfl, rfl, rfl⟩, .inl rfl⟩
  | broadcastLength | signal =>
      simp only [workerStep, hp, Option.some.injEq] at h
      subst h
      exact ⟨⟨rfl, rfl, rfl, rfl⟩, .inr rfl⟩
  | finished | exited => simp [workerStep, hp] at h
  | _ =>
      simp only [workerStep, hp, Option.some.injEq] at h
      subst h
      exact ⟨⟨rfl, rfl, rfl, rfl⟩, .inl rfl⟩

/-! ### Steps of the handler -/

theorem Inv.handlerStep {E : Env} {s s' : State} {w : ℤ} (hI : Inv E s)
    (h : handlerStep E s w = some s') : Inv E s' := by
  have hI' := hI
  obtain ⟨hH, hW, hC, hP⟩ := hI'
  cases hp : s.hpc with
  | createLength =>
      simp only [Channel.handlerStep, hp, Option.some.injEq] at h
      subst h
      rw [hp] at hH
      -- the worker still waits for the message, and the segment is zero
      rw [hH.1] at hW
      have hg := hW.get_of_unsent
      rw [hg] at hW
      exact hI.handler_alone hp (by simp [State.workerView, hW.1]) ⟨rfl, rfl⟩ rfl hH
  | createWritten =>
      simp only [Channel.handlerStep, hp, Option.some.injEq] at h
      subst h
      rw [hp] at hH
      rw [hH.1] at hW
      have hg := hW.get_of_unsent
      rw [hg] at hW
      exact hI.handler_alone hp (by simp [State.workerView, hW.2.1]) ⟨rfl, rfl⟩ rfl hH
  | mqSend =>
      simp only [Channel.handlerStep, hp, Option.some.injEq] at h
      subst h
      rw [hp] at hH hW
      simp only [State.cleared, hp] at hC hP
      exact ⟨⟨rfl, hH.2⟩, hW.mqSend, hC, hP⟩
  | waitLength p =>
      simp only [Channel.handlerStep, hp, State.waitHandler, Option.map_eq_some_iff] at h
      obtain ⟨⟨op, q⟩, hw, rfl⟩ := h
      rw [hp] at hH
      cases q with
      | some q =>
          exact hI.handler_alone hp rfl ⟨rfl, rfl⟩ rfl hH
      | none =>
          -- a length other than 0 is one that the worker has published
          have hl : s.fileLength ≠ 0 := by simpa using Wait.ok_of_step_none hw
          have hlate := hW.late_of_length hl
          have hW' := hW.of_late false false s.fileLength hlate (by simp [hp, HPc.lengthGone])
          simp only [State.cleared, hp] at hC hP
          exact ⟨⟨hH.1, hlate, hH.2⟩, hW', hC, hP⟩
  | readLength =>
      simp only [Channel.handlerStep, hp, Option.some.injEq] at h
      subst h
      rw [hp] at hH hW
      have hlen := hW.length_of_late hH.2.1
      exact hI.handler_alone hp rfl ⟨rfl, rfl⟩ rfl ⟨hH.1, hH.2.1, hlen, hH.2.2⟩
  | broadcastLength =>
      simp only [Channel.handlerStep, hp, Option.some.injEq] at h
      subst h
      rw [hp] at hH
      exact hI.wakeWorker.handler_alone hp rfl ⟨rfl, rfl⟩ rfl
        (by simpa only [HPc.Ok, WPc.early_wake] using hH)
  | branch =>
      simp only [Channel.handlerStep, hp] at h
      rw [hp] at hH
      obtain ⟨hsent, hearly, hlen, hzero⟩ := hH
      split at h <;> obtain rfl := Option.some.inj h
      · next hneg =>
          exact hI.handler_alone hp rfl ⟨rfl, rfl⟩ rfl
            ⟨hsent, hearly, hlen, by rw [hzero, ← hlen]; exact le_of_lt hneg⟩
      · exact hI.handler_alone hp rfl ⟨rfl, rfl⟩ (by simp [State.cleared, HPc.inflight, hzero])
          ⟨hsent, hearly, hlen⟩
  | loop =>
      simp only [Channel.handlerStep, hp, Option.some.injEq] at h
      subst h
      rw [hp] at hH
      obtain ⟨hsent, hearly, hlen⟩ := hH
      split
      · next hlt =>
          exact hI.handler_alone hp rfl ⟨rfl, rfl⟩ rfl ⟨hsent, hearly, hlen, hlen ▸ hlt⟩
      · next hle =>
          exact hI.handler_alone hp rfl ⟨rfl, rfl⟩ rfl ⟨hsent, hearly, hlen, hlen ▸ not_lt.mp hle⟩
  | waitChunk p =>
      simp only [Channel.handlerStep, hp, State.waitHandler, Option.map_eq_some_iff] at h
      obtain ⟨⟨op, q⟩, hw, rfl⟩ := h
      rw [hp] at hH
      obtain ⟨hsent, hearly, hlen, hlt⟩ := hH
      cases q with
      | some q =>
          exact hI.handler_alone hp rfl ⟨rfl, rfl⟩ rfl ⟨hsent, hearly, hlen, hlt⟩
      | none =>
          have hb : s.bytesWritten ≠ 0 := by simpa using Wait.ok_of_step_none hw
          exact hI.handler_alone hp rfl ⟨rfl, rfl⟩ rfl ⟨hsent, hearly, hlen, hlt, hb⟩
  | readChunk =>
      simp only [Channel.handlerStep, hp, Option.some.injEq] at h
      subst h
      rw [hp] at hH
      obtain ⟨hsent, hearly, hlen, hlt, hb⟩ := hH
      exact hI.handler_alone hp rfl ⟨rfl, rfl⟩ rfl ⟨hsent, hearly, hlen, hlt, hb, rfl⟩
  | send =>
      simp only [Channel.handlerStep, hp, State.gfsSend, Option.some.injEq] at h
      rw [hp] at hH
      obtain ⟨hsent, hearly, hlen, hlt, hb, hread⟩ := hH
      split at h <;> subst h
      · exact hI.handler_alone hp rfl ⟨rfl, rfl⟩ rfl ⟨hsent, hearly, hlen⟩
      · next hall =>
          exact hI.handler_alone hp rfl ⟨rfl, rfl⟩ rfl
            ⟨hsent, hearly, hlen, hlt, hb, hread, not_not.mp hall⟩
  | clear =>
      simp only [Channel.handlerStep, hp, Option.some.injEq] at h
      subst h
      rw [hp] at hH hW
      obtain ⟨hsent, hearly, hlen, hlt, hb, hread, hwrite⟩ := hH
      refine ⟨⟨hsent, hearly, hlen, hlt⟩, hW.clear, ?_, fun hne => absurd rfl hne⟩
      -- the chunk moves from the slot to what has been cleared
      refine Eq.trans ?_ hC
      simp [State.cleared, hp, HPc.inflight, hwrite, hread]
  | broadcastChunk =>
      simp only [Channel.handlerStep, hp, Option.some.injEq] at h
      subst h
      rw [hp] at hH
      exact hI.wakeWorker.handler_alone hp rfl ⟨rfl, rfl⟩ rfl
        (by simpa only [HPc.Ok, WPc.early_wake] using hH)
  | advance =>
      simp only [Channel.handlerStep, hp, Option.some.injEq] at h
      subst h
      rw [hp] at hH
      obtain ⟨hsent, hearly, hlen, _⟩ := hH
      exact hI.handler_alone hp rfl ⟨rfl, rfl⟩ (by simp [State.cleared, HPc.inflight])
        ⟨hsent, hearly, hlen⟩
  | destroyLength =>
      simp only [Channel.handlerStep, hp, Option.some.injEq] at h
      subst h
      rw [hp] at hH
      have hW' := hW.of_late false true 0 hH.2.1 (by simp)
      simp only [State.cleared, hp] at hC hP
      exact ⟨hH, hW', hC, hP⟩
  | destroyWritten =>
      have hempty := hI.empty_of_destroy hp
      simp only [Channel.handlerStep, hp, Option.some.injEq] at h
      subst h
      rw [hp] at hH
      exact hI.handler_alone hp (by simp [State.workerView, hempty]) ⟨rfl, rfl⟩ rfl hH
  | reply =>
      simp only [Channel.handlerStep, hp, State.replyWith, Option.some.injEq] at h
      rw [hp] at hH
      split at h <;> subst h <;>
        exact hI.handler_alone hp rfl ⟨rfl, rfl⟩ rfl hH
  | unlockLength | unlockChunk | release =>
      simp only [Channel.handlerStep, hp, Option.some.injEq] at h
      subst h
      rw [hp] at hH
      exact hI.handler_alone hp rfl ⟨rfl, rfl⟩ rfl hH
  | returned | failed => simp [Channel.handlerStep, hp] at h

/-! ### Steps of the worker -/

theorem Inv.workerStep {E : Env} {s s' : State} {r : ℤ} (hI : Inv E s)
    (h : workerStep E s r = some s') : Inv E s' := by
  have hI' := hI
  obtain ⟨hH, hW, hC, hP⟩ := hI'
  cases hp : s.wpc with
  | get =>
      simp only [Channel.workerStep, hp] at h
      rw [hp] at hW
      split at h
      · next hsent =>
          obtain rfl := Option.some.inj h
          exact hI.worker_alone hp rfl rfl rfl ⟨hsent, rfl, hW⟩
      · cases h
  | zeroLength =>
      simp only [Channel.workerStep, hp, Option.some.injEq] at h
      subst h
      rw [hp] at hW
      exact hI.worker_alone hp (by simp [State.handlerView, hW.2.2.1]) rfl rfl hW
  | checkLength =>
      simp only [Channel.workerStep, hp, Option.some.injEq] at h
      subst h
      rw [hp] at hW
      rw [if_neg (not_not.mpr hW.2.2.1)]
      exact hI.worker_alone hp rfl rfl rfl hW
  | waitLength p =>
      simp only [Channel.workerStep, hp, State.waitWorker, Option.map_eq_some_iff] at h
      obtain ⟨⟨op, q⟩, hw, rfl⟩ := h
      rw [hp] at hW
      cases q <;>
        exact hI.worker_alone hp rfl rfl rfl hW
  | setLength =>
      simp only [Channel.workerStep, hp, Option.some.injEq] at h
      subst h
      rw [hp] at hW
      obtain ⟨hsent, hlen, hzero, hb, hearly, hcount⟩ := hW
      simp only [State.published, hp] at hC
      exact ⟨hH.publishLength hearly, ⟨hsent, hlen, fun _ => hlen, hb, hcount⟩, hC, hP⟩
  | zeroWritten =>
      simp only [Channel.workerStep, hp, Option.some.injEq] at h
      subst h
      rw [hp] at hW
      exact hI.worker_alone hp (by simp [State.handlerView, hW.2.2.2.1]) rfl rfl hW
  | branch =>
      simp only [Channel.workerStep, hp] at h
      rw [hp] at hW
      obtain ⟨hsent, hlen, hlength, hb, hcount⟩ := hW
      split at h <;> obtain rfl := Option.some.inj h
      · next hf =>
          -- a missing file is announced as -1
          have hF : E.fileLen = -1 := by
            rw [Option.isNone_iff_eq_none] at hf
            simp [Env.fileLen, hf]
          exact hI.worker_alone hp rfl rfl rfl ⟨hsent, hlen, hlength, by rw [hF, hcount]; decide⟩
      · exact hI.worker_alone hp rfl rfl (by simp [State.published, WPc.inflight, hcount])
          ⟨hsent, hlen, hlength⟩
  | loop =>
      simp only [Channel.workerStep, hp, Option.some.injEq] at h
      subst h
      rw [hp] at hW
      obtain ⟨hsent, hlen, hlength⟩ := hW
      split
      · next hlt =>
          exact hI.worker_alone hp rfl rfl rfl ⟨hsent, hlen, hlength, hlen ▸ hlt⟩
      · next hle =>
          exact hI.worker_alone hp rfl rfl rfl ⟨hsent, hlen, hlength, hlen ▸ not_lt.mp hle⟩
  | waitSlot p =>
      simp only [Channel.workerStep, hp, State.waitWorker, Option.map_eq_some_iff] at h
      obtain ⟨⟨op, q⟩, hw, rfl⟩ := h
      rw [hp] at hW
      obtain ⟨hsent, hlen, hlength, hlt⟩ := hW
      cases q with
      | some q =>
          exact hI.worker_alone hp rfl rfl rfl ⟨hsent, hlen, hlength, hlt⟩
      | none =>
          have hb : s.bytesWritten = 0 := by simpa using Wait.ok_of_step_none hw
          exact hI.worker_alone hp rfl rfl rfl ⟨hsent, hlen, hlength, hlt, hb⟩
  | pread =>
      simp only [Channel.workerStep, hp] at h
      rw [hp] at hW
      split at h
      · obtain rfl := Option.some.inj h
        exact hI.worker_alone hp rfl rfl rfl hW
      · cases h
  | publish =>
      simp only [Channel.workerStep, hp, Option.some.injEq] at h
      subst h
      rw [hp] at hW
      obtain ⟨hsent, hlen, hlength, hlt, hb⟩ := hW
      rw [hb] at hH hC
      simp only [State.published, hp, WPc.inflight, cond_false, add_zero] at hC
      refine ⟨?_, ⟨hsent, hlen, hlength, hlt⟩, ?_, fun _ => ?_⟩
      · rw [hp] at hH
        exact hH.fill s.wReadLen
      · -- the chunk that the worker has read is now in the slot
        simp only [State.published, WPc.inflight, cond_true]
        rw [← hC]
        rfl
      · rw [← hC] at hlt
        exact hlt
  | broadcastLength =>
      simp only [Channel.workerStep, hp, Option.some.injEq] at h
      subst h
      rw [hp] at hW
      exact hI.wakeHandler.worker_alone hp rfl rfl rfl
        (by simpa only [WPc.Ok, HPc.early_wake, HPc.lengthGone_wake] using hW)
  | signal =>
      simp only [Channel.workerStep, hp, Option.some.injEq] at h
      subst h
      rw [hp] at hW
      exact hI.wakeHandler.worker_alone hp rfl rfl rfl
        (by simpa only [WPc.Ok, HPc.early_wake, HPc.lengthGone_wake] using hW)
  | advance =>
      simp only [Channel.workerStep, hp, Option.some.injEq] at h
      subst h
      rw [hp] at hW
      obtain ⟨hsent, hlen, hlength, _⟩ := hW
      exact hI.worker_alone hp rfl rfl (by simp [State.published, WPc.inflight])
        ⟨hsent, hlen, hlength⟩
  | unlockLength | unlockSlot =>
      simp only [Channel.workerStep, hp, Option.some.injEq] at h
      subst h
      rw [hp] at hW
      exact hI.worker_alone hp rfl rfl rfl hW
  | finished | exited => simp [Channel.workerStep, hp] at h

/-- **Every step keeps the proof outline.** -/
theorem Inv.step {E : Env} {s s' : State} {a : Act} (hI : Inv E s)
    (h : step E s a = some s') : Inv E s' := by
  cases a with
  | handler w => exact hI.handlerStep h
  | worker r => exact hI.workerStep h
  | spuriousHandler =>
      obtain rfl := Option.some.inj h
      exact hI.wakeHandler
  | spuriousWorker =>
      obtain rfl := Option.some.inj h
      exact hI.wakeWorker

theorem Reachable.inv {E : Env} {ok : State → Act → Prop} {s : State} (h : Reachable E ok s) :
    Inv E s :=
  h.invariant (inv_init E) fun _ _ _ hI _ hs => hI.step hs

/-! ### Mutexes -/

/-- The mutex that the handler holds. -/
def HPc.holds (L : Layout) : HPc → Option ℕ
  | waitLength w => w.held L.fileLenMutex
  | readLength | unlockLength => some L.fileLenMutex
  | waitChunk w => w.held L.dataMutex
  | readChunk | send | clear | unlockChunk | failed => some L.dataMutex
  | _ => none

/-- The mutex that the worker holds. -/
def WPc.holds (L : Layout) : WPc → Option ℕ
  | waitLength w => w.held L.fileLenMutex
  | setLength | zeroWritten | unlockLength => some L.fileLenMutex
  | waitSlot w => w.held L.dataMutex
  | pread | publish | signal | unlockSlot => some L.dataMutex
  | _ => none

@[simp] theorem HPc.holds_wake (L : Layout) (p : HPc) : p.wake.holds L = p.holds L := by
  cases p <;> simp [wake, holds]

@[simp] theorem WPc.holds_wake (L : Layout) (p : WPc) : p.wake.holds L = p.holds L := by
  cases p <;> simp [wake, holds]

/-- Each side holds exactly the mutex that its program point says. -/
structure Locks (E : Env) (s : State) : Prop where
  handler : Holds s.mutex .proxy (s.hpc.holds E.proxy)
  worker : Holds s.mutex .cache (s.wpc.holds E.cache)

theorem locks_init (E : Env) : Locks E (init E) where
  handler := by intro m; simp [init, HPc.holds]
  worker := by intro m; simp [init, WPc.holds]

theorem Locks.handlerStep {E : Env} {s s' : State} {w : ℤ} (hL : Locks E s)
    (h : handlerStep E s w = some s') : Locks E s' := by
  obtain ⟨hH, hW⟩ := hL
  cases hp : s.hpc with
  | waitLength p | waitChunk p =>
      simp only [Channel.handlerStep, hp, State.waitHandler, Option.map_eq_some_iff] at h
      obtain ⟨⟨op, q⟩, hw, rfl⟩ := h
      rw [hp] at hH
      refine ⟨?_, hW.wait_other (by decide) hH hw⟩
      have := hH.wait hw
      cases q <;> exact this
  | unlockLength | unlockChunk =>
      simp only [Channel.handlerStep, hp, Option.some.injEq] at h
      subst h
      rw [hp] at hH
      refine ⟨hH.drop, hW.update_other ?_ (by simp)⟩
      rw [(hH _).mpr rfl]
      decide
  | loop =>
      simp only [Channel.handlerStep, hp, Option.some.injEq] at h
      subst h
      split <;> exact ⟨by rw [hp] at hH; exact hH, hW⟩
  | branch =>
      simp only [Channel.handlerStep, hp] at h
      split at h <;> obtain rfl := Option.some.inj h <;> exact ⟨by rw [hp] at hH; exact hH, hW⟩
  | send =>
      simp only [Channel.handlerStep, hp, State.gfsSend, Option.some.injEq] at h
      split at h <;> subst h <;> exact ⟨by rw [hp] at hH; exact hH, hW⟩
  | reply =>
      simp only [Channel.handlerStep, hp, State.replyWith, Option.some.injEq] at h
      split at h <;> subst h <;> exact ⟨by rw [hp] at hH; exact hH, hW⟩
  | returned | failed => simp [Channel.handlerStep, hp] at h
  | _ =>
      simp only [Channel.handlerStep, hp, Option.some.injEq] at h
      subst h
      exact ⟨by rw [hp] at hH; exact hH, by simpa using hW⟩

theorem Locks.workerStep {E : Env} {s s' : State} {r : ℤ} (hL : Locks E s)
    (h : workerStep E s r = some s') : Locks E s' := by
  obtain ⟨hH, hW⟩ := hL
  cases hp : s.wpc with
  | waitLength p | waitSlot p =>
      simp only [Channel.workerStep, hp, State.waitWorker, Option.map_eq_some_iff] at h
      obtain ⟨⟨op, q⟩, hw, rfl⟩ := h
      rw [hp] at hW
      refine ⟨hH.wait_other (by decide) hW hw, ?_⟩
      have := hW.wait hw
      cases q <;> exact this
  | unlockLength | unlockSlot =>
      simp only [Channel.workerStep, hp, Option.some.injEq] at h
      subst h
      rw [hp] at hW
      refine ⟨hH.update_other ?_ (by simp), hW.drop⟩
      rw [(hW _).mpr rfl]
      decide
  | get | pread =>
      simp only [Channel.workerStep, hp] at h
      split at h
      · obtain rfl := Option.some.inj h
        exact ⟨hH, by rw [hp] at hW; exact hW⟩
      · cases h
  | branch =>
      simp only [Channel.workerStep, hp] at h
      split at h <;> obtain rfl := Option.some.inj h <;> exact ⟨hH, by rw [hp] at hW; exact hW⟩
  | loop | checkLength =>
      simp only [Channel.workerStep, hp, Option.some.injEq] at h
      subst h
      split <;> exact ⟨hH, by rw [hp] at hW; exact hW⟩
  | finished | exited => simp [Channel.workerStep, hp] at h
  | _ =>
      simp only [Channel.workerStep, hp, Option.some.injEq] at h
      subst h
      exact ⟨by simpa using hH, by rw [hp] at hW; exact hW⟩

theorem Locks.step {E : Env} {s s' : State} {a : Act} (hL : Locks E s)
    (h : step E s a = some s') : Locks E s' := by
  cases a with
  | handler w => exact hL.handlerStep h
  | worker r => exact hL.workerStep h
  | spuriousHandler =>
      obtain rfl := Option.some.inj h
      exact ⟨by simpa using hL.handler, hL.worker⟩
  | spuriousWorker =>
      obtain rfl := Option.some.inj h
      exact ⟨hL.handler, by simpa using hL.worker⟩

theorem Reachable.locks {E : Env} {ok : State → Act → Prop} {s : State}
    (h : Reachable E ok s) : Locks E s :=
  h.invariant (locks_init E) fun _ _ _ hL _ hs => hL.step hs

end OsProjects.Channel
