import OsProjects.Transfer

/-! # The length handshake

`mem->file_length` is zero while no length is known, `-1` for a missing file and the length
otherwise, so an empty file looks like a length not yet set.  With the waiting loops read as
guarded steps and a faultless environment, `handshake_iff` says what follows: the exchange
never gets stuck before the handler returns exactly when the file is not the empty one.  For an
empty file the handler waits for a length that the worker has already stored
(`stuck_of_empty`). -/

namespace OsProjects.Channel

open Monitor Transition

/-- The handler or the worker has a faultless step; a spurious wakeup does not count. -/
def CanMove (E : Env) (s : State) : Prop :=
  (∃ w, Faultless s (.handler w) ∧ (handlerStep E s w).isSome) ∨
    ∃ r, Faultless s (.worker r) ∧ (workerStep E s r).isSome

/-! ### Guarded waits -/

/-- In the guarded reading a waiting loop has one program point. -/
def HPc.atGuard : HPc → Prop
  | waitLength w | waitChunk w => w = .lock
  | _ => True

def WPc.atGuard : WPc → Prop
  | waitLength w | waitSlot w => w = .lock
  | _ => True

/-- Both sides are at guards only. -/
structure Guarded (s : State) : Prop where
  handler : s.hpc.atGuard
  worker : s.wpc.atGuard

theorem HPc.atGuard.wake {p : HPc} (h : p.atGuard) : p.wake.atGuard := by
  cases p with
  | waitLength w | waitChunk w =>
      obtain rfl : w = .lock := h
      rfl
  | _ => trivial

theorem WPc.atGuard.wake {p : WPc} (h : p.atGuard) : p.wake.atGuard := by
  cases p with
  | waitLength w | waitSlot w =>
      obtain rfl : w = .lock := h
      rfl
  | _ => trivial

section guarded

variable {E : Env} {s s' : State} {w r : ℤ}

theorem Guarded.handlerStep (hmode : E.mode = .guarded) (hG : Guarded s)
    (h : handlerStep E s w = some s') : Guarded s' := by
  obtain ⟨hH, hW⟩ := hG
  cases hp : s.hpc with
  | waitLength p | waitChunk p =>
      simp only [Channel.handlerStep, hp, State.waitHandler, Option.map_eq_some_iff] at h
      obtain ⟨⟨op, q⟩, hw, rfl⟩ := h
      rw [hp] at hH
      obtain rfl : p = .lock := hH
      rw [hmode] at hw
      obtain rfl := Wait.left_of_guarded hw
      exact ⟨trivial, hW⟩
  | branch =>
      simp only [Channel.handlerStep, hp] at h
      split at h <;> obtain rfl := Option.some.inj h <;> exact ⟨trivial, hW⟩
  | loop =>
      simp only [Channel.handlerStep, hp, Option.some.injEq] at h
      subst h
      split
      · exact ⟨rfl, hW⟩
      · exact ⟨trivial, hW⟩
  | mqSend =>
      simp only [Channel.handlerStep, hp, Option.some.injEq] at h
      subst h
      exact ⟨rfl, hW⟩
  | broadcastLength | broadcastChunk =>
      simp only [Channel.handlerStep, hp, Option.some.injEq] at h
      subst h
      exact ⟨trivial, hW.wake⟩
  | send =>
      simp only [Channel.handlerStep, hp, State.gfsSend, Option.some.injEq] at h
      split at h <;> subst h <;> exact ⟨trivial, hW⟩
  | reply =>
      simp only [Channel.handlerStep, hp, State.replyWith, Option.some.injEq] at h
      split at h <;> subst h <;> exact ⟨trivial, hW⟩
  | returned | failed => simp [Channel.handlerStep, hp] at h
  | _ =>
      simp only [Channel.handlerStep, hp, Option.some.injEq] at h
      subst h
      exact ⟨trivial, hW⟩

theorem Guarded.workerStep (hmode : E.mode = .guarded) (hG : Guarded s)
    (h : workerStep E s r = some s') : Guarded s' := by
  obtain ⟨hH, hW⟩ := hG
  cases hp : s.wpc with
  | waitLength p | waitSlot p =>
      simp only [Channel.workerStep, hp, State.waitWorker, Option.map_eq_some_iff] at h
      obtain ⟨⟨op, q⟩, hw, rfl⟩ := h
      rw [hp] at hW
      obtain rfl : p = .lock := hW
      rw [hmode] at hw
      obtain rfl := Wait.left_of_guarded hw
      exact ⟨hH, trivial⟩
  | get | pread =>
      simp only [Channel.workerStep, hp, Option.ite_none_right_eq_some] at h
      obtain ⟨_, h⟩ := h
      obtain rfl := Option.some.inj h
      exact ⟨hH, trivial⟩
  | checkLength | loop =>
      simp only [Channel.workerStep, hp, Option.some.injEq] at h
      subst h
      split <;> exact ⟨hH, by trivial⟩
  | branch =>
      simp only [Channel.workerStep, hp] at h
      split at h <;> obtain rfl := Option.some.inj h <;> exact ⟨hH, trivial⟩
  | broadcastLength | signal =>
      simp only [Channel.workerStep, hp, Option.some.injEq] at h
      subst h
      exact ⟨hH.wake, trivial⟩
  | finished | exited => simp [Channel.workerStep, hp] at h
  | _ =>
      simp only [Channel.workerStep, hp, Option.some.injEq] at h
      subst h
      exact ⟨hH, trivial⟩

theorem Reachable.guarded {ok : State → Act → Prop} (hmode : E.mode = .guarded)
    (h : Reachable E ok s) : Guarded s := by
  apply h.invariant ⟨trivial, trivial⟩
  intro s a s' hG _ hs
  cases a with
  | handler w => exact hG.handlerStep hmode hs
  | worker r => exact hG.workerStep hmode hs
  | spuriousHandler =>
      obtain rfl := Option.some.inj hs
      exact ⟨hG.handler.wake, hG.worker⟩
  | spuriousWorker =>
      obtain rfl := Option.some.inj hs
      exact ⟨hG.handler, hG.worker.wake⟩

end guarded

/-! ### Progress -/

theorem Env.fileLen_le {E : Env} (hsmall : E.contents.length < 2 ^ 31) :
    E.fileLen ≤ E.contents.length := by
  unfold Env.fileLen
  cases hf : E.file with
  | none => simp only; omega
  | some f =>
      simp only [Env.contents, hf, Option.getD_some] at hsmall ⊢
      rw [cInt_of_lt (by omega) (by omega)]

theorem Env.fileLen_ne_zero {E : Env} (hsmall : E.contents.length < 2 ^ 31)
    (hfile : E.file ≠ some []) : E.fileLen ≠ 0 := by
  unfold Env.fileLen
  cases hf : E.file with
  | none => simp
  | some f =>
      simp only [Env.contents, hf, Option.getD_some] at hsmall ⊢
      rw [cInt_of_lt (by omega) (by omega)]
      intro h0
      have hnil : f = [] := List.length_eq_zero_iff.mp (by omega)
      exact hfile (by rw [hf, hnil])

section progress

variable {E : Env} {s : State}

/-- Nothing is locked while both sides are at their waits. -/
theorem Locks.free (hL : Locks E s) (hh : s.hpc.holds E.proxy = none)
    (hw : s.wpc.holds E.cache = none) (m : ℕ) : s.mutex m = none := by
  obtain ⟨hH, hW⟩ := hL
  rw [hh] at hH
  rw [hw] at hW
  cases hm : s.mutex m with
  | none => rfl
  | some t =>
      cases t with
      | proxy => exact absurd hm (hH.ne_of_none m)
      | cache => exact absurd hm (hW.ne_of_none m)

/-- Outside of its waits the handler moves. -/
theorem canMove_handler (hl : ∀ w, s.hpc ≠ .waitLength w) (hc : ∀ w, s.hpc ≠ .waitChunk w)
    (hr : ¬ s.Returned) : CanMove E s := by
  refine .inl ⟨s.readLen, fun _ => rfl, ?_⟩
  cases hp : s.hpc with
  | waitLength w => exact absurd hp (hl w)
  | waitChunk w => exact absurd hp (hc w)
  | returned => exact absurd (.inl hp) hr
  | failed => exact absurd (.inr hp) hr
  | branch =>
      simp only [handlerStep, hp]
      split <;> rfl
  | _ => simp [handlerStep, hp]

/-- Outside of its waits the worker moves, once the message is sent and until it ends. -/
theorem canMove_worker (hsmall : E.contents.length < 2 ^ 31)
    (hcap : 1 ≤ E.segmentSize - E.sizeofShmData - 1) (hI : Inv E s) (hF : Filled E s)
    (hsent : s.sent = true) (hl : ∀ w, s.wpc ≠ .waitLength w) (hs : ∀ w, s.wpc ≠ .waitSlot w)
    (hf : s.wpc ≠ .finished) (he : s.wpc ≠ .exited) : CanMove E s := by
  refine .inr ⟨1, fun _ => le_rfl, ?_⟩
  cases hp : s.wpc with
  | get => simp [workerStep, hp, hsent]
  | waitLength w => exact absurd hp (hl w)
  | waitSlot w => exact absurd hp (hs w)
  | finished => exact absurd hp hf
  | exited => exact absurd hp he
  | branch =>
      simp only [workerStep, hp]
      split <;> rfl
  | pread =>
      -- one byte fits the data area and is left in the file
      have hW := hI.worker
      simp only [hp, WPc.Ok] at hW
      have hww := hF.wWritten
      have hlen := Env.fileLen_le hsmall
      have hcount := E.count_eq (by omega)
      have hok : E.PreadOk s.wBytesWritten 1 := .inr ⟨hww, by omega, by omega, by omega⟩
      simp [workerStep, hp, hok]
  | _ => simp [workerStep, hp]

theorem canMove_of_length (hmode : E.mode = .guarded) (hp : s.hpc = .waitLength .lock)
    (hfree : ∀ m, s.mutex m = none) (hl : s.fileLength ≠ 0) : CanMove E s :=
  .inl ⟨0, by simp [Faultless, hp],
    by simp [handlerStep, hp, State.waitHandler, Wait.step, hmode, hfree, hl]⟩

theorem canMove_of_chunk (hmode : E.mode = .guarded) (hp : s.hpc = .waitChunk .lock)
    (hfree : ∀ m, s.mutex m = none) (hb : s.bytesWritten ≠ 0) : CanMove E s :=
  .inl ⟨0, by simp [Faultless, hp],
    by simp [handlerStep, hp, State.waitHandler, Wait.step, hmode, hfree, hb]⟩

theorem canMove_of_slot (hmode : E.mode = .guarded) (hp : s.wpc = .waitSlot .lock)
    (hfree : ∀ m, s.mutex m = none) (hb : s.bytesWritten = 0) : CanMove E s :=
  .inr ⟨0, by simp [Faultless, hp],
    by simp [workerStep, hp, State.waitWorker, Wait.step, hmode, hfree, hb]⟩

theorem canMove_of_noLength (hmode : E.mode = .guarded) (hp : s.wpc = .waitLength .lock)
    (hfree : ∀ m, s.mutex m = none) (hl : s.fileLength = 0) : CanMove E s :=
  .inr ⟨0, by simp [Faultless, hp],
    by simp [workerStep, hp, State.waitWorker, Wait.step, hmode, hfree, hl]⟩

/-- A handler that waits for the length has a length, or a worker that moves. -/
theorem canMove_waitLength (hmode : E.mode = .guarded) (hsmall : E.contents.length < 2 ^ 31)
    (hcap : 1 ≤ E.segmentSize - E.sizeofShmData - 1) (hfile : E.file ≠ some []) (hI : Inv E s)
    (hF : Filled E s) (hL : Locks E s) (hG : Guarded s) (hp : s.hpc = .waitLength .lock) :
    CanMove E s := by
  have hH := hI.handler
  have hW := hI.worker
  have hgw := hG.worker
  have hF0 := Env.fileLen_ne_zero hsmall hfile
  rw [hp] at hH hW
  have hholds : s.hpc.holds E.proxy = none := by rw [hp]; rfl
  cases hq : s.wpc with
  | waitLength w =>
      rw [hq] at hW hgw
      obtain rfl : w = .lock := hgw
      exact canMove_of_noLength hmode hq (hL.free hholds (by rw [hq]; rfl)) hW.2.2.1
  | waitSlot w =>
      rw [hq] at hW hgw
      obtain rfl : w = .lock := hgw
      obtain ⟨_, _, hfl, hlt⟩ := hW
      apply canMove_of_length hmode hp (hL.free hholds (by rw [hq]; rfl))
      rw [hfl rfl]
      exact hF0
  | finished =>
      rw [hq] at hW
      obtain ⟨_, _, hfl, _⟩ := hW
      apply canMove_of_length hmode hp (hL.free hholds (by rw [hq]; rfl))
      rw [hfl rfl]
      exact hF0
  | exited =>
      rw [hq] at hW
      exact hW.elim
  | _ =>
      exact canMove_worker hsmall hcap hI hF hH.1 (by simp [hq]) (by simp [hq]) (by simp [hq])
        (by simp [hq])

/-- A handler that waits for a chunk has a chunk, or a worker that moves. -/
theorem canMove_waitChunk (hmode : E.mode = .guarded) (hsmall : E.contents.length < 2 ^ 31)
    (hcap : 1 ≤ E.segmentSize - E.sizeofShmData - 1) (hI : Inv E s)
    (hF : Filled E s) (hL : Locks E s) (hG : Guarded s) (hp : s.hpc = .waitChunk .lock) :
    CanMove E s := by
  have hH := hI.handler
  have hW := hI.worker
  have hcount := hI.count
  have hgw := hG.worker
  rw [hp] at hH hW
  have hholds : s.hpc.holds E.proxy = none := by rw [hp]; rfl
  cases hq : s.wpc with
  | waitLength w =>
      rw [hq] at hW hgw
      obtain rfl : w = .lock := hgw
      exact canMove_of_noLength hmode hq (hL.free hholds (by rw [hq]; rfl)) hW.2.2.1
  | waitSlot w =>
      rw [hq] at hgw
      obtain rfl : w = .lock := hgw
      have hfree := hL.free hholds (by rw [hq]; rfl)
      by_cases hb : s.bytesWritten = 0
      · exact canMove_of_slot hmode hq hfree hb
      · exact canMove_of_chunk hmode hp hfree hb
  | finished =>
      -- everything is published and not everything is cleared
      rw [hq] at hW
      obtain ⟨_, _, _, hdone⟩ := hW
      obtain ⟨_, _, _, hlt⟩ := hH
      simp only [State.cleared, State.published, hp, hq, HPc.inflight, WPc.inflight,
        cond_false] at hcount
      exact canMove_of_chunk hmode hp (hL.free hholds (by rw [hq]; rfl)) (by omega)
  | exited =>
      rw [hq] at hW
      exact hW.elim
  | _ =>
      exact canMove_worker hsmall hcap hI hF hH.1 (by simp [hq]) (by simp [hq]) (by simp [hq])
        (by simp [hq])

theorem canMove_of_nonempty (hmode : E.mode = .guarded) (hsmall : E.contents.length < 2 ^ 31)
    (hcap : 1 ≤ E.segmentSize - E.sizeofShmData - 1) (hfile : E.file ≠ some [])
    (h : Reachable E Faultless s) (hr : ¬ s.Returned) : CanMove E s := by
  have hI := h.inv
  have hF := h.filled hsmall hcap
  have hL := h.locks
  have hG := h.guarded hmode
  have hgh := hG.handler
  cases hp : s.hpc with
  | waitLength w =>
      rw [hp] at hgh
      obtain rfl : w = .lock := hgh
      exact canMove_waitLength hmode hsmall hcap hfile hI hF hL hG hp
  | waitChunk w =>
      rw [hp] at hgh
      obtain rfl : w = .lock := hgh
      exact canMove_waitChunk hmode hsmall hcap hI hF hL hG hp
  | _ => exact canMove_handler (by simp [hp]) (by simp [hp]) hr

end progress

/-! ### The empty file -/

/-- The handler waits, and the worker stores length 0, broadcasts and ends. -/
def emptyRun : List Act := List.replicate 3 (.handler 0) ++ List.replicate 10 (.worker 1)

/-- For an empty file the handler waits for a length other than 0 from a worker that has
ended. -/
theorem stuck_of_empty (E : Env) (hmode : E.mode = .guarded) (hfile : E.file = some []) :
    ∃ s, Reachable E Faultless s ∧ ¬ s.Returned ∧ ¬ CanMove E s := by
  obtain ⟨mode, proxy, cache, size, segment, file, hlt⟩ := E
  obtain rfl : mode = .guarded := hmode
  obtain rfl : file = some [] := hfile
  have hrun : ∃ s, execOk (step ⟨.guarded, proxy, cache, size, segment, some [], hlt⟩) Faultless
      (init ⟨.guarded, proxy, cache, size, segment, some [], hlt⟩) emptyRun = some s ∧
      s.hpc = .waitLength .lock ∧ s.fileLength = 0 ∧ s.wpc = .finished :=
    ⟨_, rfl, rfl, rfl, rfl⟩
  obtain ⟨s, hs, hp, hl, hq⟩ := hrun
  refine ⟨s, reach_of_execOk _ hs, by simp [State.Returned, hp], ?_⟩
  rintro (⟨w, _, hm⟩ | ⟨r, _, hm⟩)
  · simp [handlerStep, hp, hl, State.waitHandler, Wait.step] at hm
  · simp [workerStep, hq] at hm

/-- **The handshake** gets stuck before the handler returns exactly for the empty file. -/
theorem handshake_iff (E : Env) (hmode : E.mode = .guarded) (hsmall : E.contents.length < 2 ^ 31)
    (hcap : 1 ≤ E.segmentSize - E.sizeofShmData - 1) :
    (∀ s, Reachable E Faultless s → ¬ s.Returned → CanMove E s) ↔ E.file ≠ some [] := by
  constructor
  · intro h hfile
    obtain ⟨s, hs, hr, hm⟩ := stuck_of_empty E hmode hfile
    exact hm (h s hs hr)
  · intro hfile s hs hr
    exact canMove_of_nonempty hmode hsmall hcap hfile hs hr

/-- A file of one byte, and the empty file. -/
def oneByte : Env := ⟨.guarded, proxyLayout, cacheLayout, 144, 1024, some [7], kilobyte_lt⟩
def emptyFile : Env := ⟨.guarded, proxyLayout, cacheLayout, 144, 1024, some [], kilobyte_lt⟩

theorem handshake_iff_oneByte :
    (∀ s, Reachable oneByte Faultless s → ¬ s.Returned → CanMove oneByte s) ↔
      oneByte.file ≠ some [] :=
  handshake_iff oneByte rfl (by decide) (by decide)

theorem handshake_stuck_emptyFile :
    ¬ ∀ s, Reachable emptyFile Faultless s → ¬ s.Returned → CanMove emptyFile s := by
  obtain ⟨s, hs, hr, hm⟩ := stuck_of_empty emptyFile rfl rfl
  exact fun h => hm (h s hs hr)

end OsProjects.Channel
