import OsProjects.ChannelInv
import OsProjects.Handoff

/-! # The transfer of a file

With sends that accept everything and `pread` results of at least one byte, the exchange is a
refinement of the one-slot hand-off of `Handoff.lean`: `publish` is a `put`, `gfs_send` is a
`take`, every other step leaves the abstract state alone (`pipe_step`).  Hence the body passed
to `gfs_send` is always a prefix of the file, and the whole file when the handler returns
(`transfer_exact`), for every interleaving, chunking, layout of the mutexes and reading of the
waiting loops. -/

namespace OsProjects.Channel

open Monitor Transition

/-- Sends accept everything, and `pread` returns at least one byte. -/
def Faultless (s : State) : Act → Prop
  | .handler w => s.hpc = .send → w = s.readLen
  | .worker r => s.wpc = .pread → 1 ≤ r
  | _ => True

instance (s : State) : (a : Act) → Decidable (Faultless s a)
  | .handler w => inferInstanceAs (Decidable (s.hpc = .send → w = s.readLen))
  | .worker r => inferInstanceAs (Decidable (s.wpc = .pread → 1 ≤ r))
  | .spuriousHandler | .spuriousWorker => isTrue trivial

/-- `gfs_sendheader(ctx, GF_OK, file_len)` has been called. -/
def HPc.announced : HPc → Bool
  | loop | waitChunk _ | readChunk | send | clear | unlockChunk | broadcastChunk | advance
  | destroyLength | destroyWritten | release | reply | returned | failed => true
  | _ => false

@[simp] theorem HPc.announced_wake (p : HPc) : p.wake.announced = p.announced := by
  cases p <;> rfl

/-! ### Bounds of a faultless run -/

/-- A segment with a data area: the count given to `pread` does not wrap around. -/
theorem Env.count_eq (E : Env) (hcap : 0 ≤ E.segmentSize - E.sizeofShmData - 1) :
    (E.count : ℤ) = E.segmentSize - E.sizeofShmData - 1 := by
  have hseg := E.segmentSize_lt
  rw [Env.count, sizeT_of_nonneg hcap (by omega)]
  omega

/-- What a faultless run adds to the proof outline: every count lies in the file, and a chunk
that is about to be published is the next piece of the file. -/
structure Filled (E : Env) (s : State) : Prop where
  written : 0 ≤ s.bytesWritten
  cleared : 0 ≤ s.cleared
  wWritten : 0 ≤ s.wBytesWritten
  bound : s.published ≤ E.contents.length
  chunk : s.wpc = .publish → 1 ≤ s.wReadLen ∧
    s.wBytesWritten + s.wReadLen ≤ E.contents.length ∧
    s.data.take s.wReadLen.toNat = E.chunk s.wBytesWritten s.wReadLen
  read : s.wpc.inflight → 1 ≤ s.wReadLen
  area : s.data.length = (E.segmentSize - E.sizeofShmData).toNat
  alive : s.hpc ≠ .failed

/-- What the handler has told its caller. -/
structure Reported (E : Env) (s : State) : Prop where
  header : s.headers = if s.hpc.announced then [(.ok, sizeT E.fileLen)] else []
  ret : s.hpc = .returned → s.ret = some s.bytesTransferred

theorem filled_init (E : Env) : Filled E (init E) where
  written := le_rfl
  cleared := by simp [init, State.cleared, HPc.inflight]
  wWritten := le_rfl
  bound := by simp [init, State.published, WPc.inflight]
  chunk := by simp [init]
  read := by simp [init, WPc.inflight]
  area := by simp [init]
  alive := by simp [init]

theorem reported_init (E : Env) : Reported E (init E) where
  header := by simp [init, HPc.announced]
  ret := by simp [init]

section steps

variable {E : Env} {s s' : State} {w r : ℤ}

theorem Filled.bytesWritten_lt (hsmall : E.contents.length < 2 ^ 31) (hI : Inv E s)
    (hF : Filled E s) : s.bytesWritten < 2 ^ 31 := by
  have h₁ := hI.count
  have h₂ := hF.bound
  have h₃ := hF.cleared
  omega

/-- The value that a faultless `gfs_send` stores in `write_len`. -/
theorem Filled.result_eq (hsmall : E.contents.length < 2 ^ 31) (hI : Inv E s) (hF : Filled E s)
    (hp : s.hpc = .send) (hw : Faultless s (.handler w)) : cInt w = s.readLen := by
  have hlt := hF.bytesWritten_lt hsmall hI
  have hnn := hF.written
  have hH := hI.handler
  simp only [hp, HPc.Ok] at hH
  rw [hw hp, cInt_of_lt (by omega) (by omega)]

/-- The handler leaves the slot and the data alone and clears nothing. -/
theorem Filled.handler_alone {p : HPc} (hF : Filled E s) (hp : s.hpc = p)
    (hsame : (s'.wpc, s'.wBytesWritten, s'.wReadLen, s'.bytesWritten, s'.data) =
      (s.wpc, s.wBytesWritten, s.wReadLen, s.bytesWritten, s.data))
    (hcleared : s'.cleared = s.bytesTransferred + bif p.inflight then s.writeLen else 0)
    (halive : s'.hpc ≠ .failed) : Filled E s' := by
  simp only [Prod.mk.injEq] at hsame
  obtain ⟨hwpc, hwbw, hwrl, hbw, hdata⟩ := hsame
  subst hp
  have hcleared : s'.cleared = s.cleared := hcleared
  have hpublished : s'.published = s.published := by
    rw [State.published, State.published, hwpc, hwbw, hwrl]
  constructor
  · rw [hbw]
    exact hF.written
  · rw [hcleared]
    exact hF.cleared
  · rw [hwbw]
    exact hF.wWritten
  · rw [hpublished]
    exact hF.bound
  · rw [hwpc, hwbw, hwrl, hdata]
    exact hF.chunk
  · rw [hwpc, hwrl]
    exact hF.read
  · rw [hdata]
    exact hF.area
  · exact halive

/-- The worker leaves the slot and the data alone, publishes nothing and has read nothing. -/
theorem Filled.worker_alone {p : WPc} (hF : Filled E s) (hp : s.wpc = p)
    (hsame : (s'.hpc, s'.bytesTransferred, s'.writeLen, s'.bytesWritten, s'.data) =
      (s.hpc, s.bytesTransferred, s.writeLen, s.bytesWritten, s.data))
    (hww : 0 ≤ s'.wBytesWritten)
    (hpublished : s'.published = s.wBytesWritten + bif p.inflight then s.wReadLen else 0)
    (hpublish : s'.wpc ≠ .publish) (hread : s'.wpc.inflight → 1 ≤ s'.wReadLen) :
    Filled E s' := by
  simp only [Prod.mk.injEq] at hsame
  obtain ⟨hhpc, hbt, hwl, hbw, hdata⟩ := hsame
  subst hp
  have hpublished : s'.published = s.published := hpublished
  have hcleared : s'.cleared = s.cleared := by
    rw [State.cleared, State.cleared, hhpc, hbt, hwl]
  constructor
  · rw [hbw]
    exact hF.written
  · rw [hcleared]
    exact hF.cleared
  · exact hww
  · rw [hpublished]
    exact hF.bound
  · exact fun hp => absurd hp hpublish
  · exact hread
  · rw [hdata]
    exact hF.area
  · rw [hhpc]
    exact hF.alive

theorem Filled.wakeHandler (hF : Filled E s) : Filled E { s with hpc := s.hpc.wake } := by
  obtain ⟨hwr, hcl, hww, hbo, hch, hre, har, hal⟩ := hF
  exact ⟨hwr, by simpa [State.cleared] using hcl, hww, hbo, hch, hre, har, by simpa using hal⟩

theorem Filled.wakeWorker (hF : Filled E s) : Filled E { s with wpc := s.wpc.wake } := by
  obtain ⟨hwr, hcl, hww, hbo, hch, hre, har, hal⟩ := hF
  exact ⟨hwr, hcl, hww, by simpa [State.published] using hbo, by simpa using hch,
    by simpa using hre, har, hal⟩

theorem Filled.handlerStep (hsmall : E.contents.length < 2 ^ 31) (hI : Inv E s)
    (hF : Filled E s) (hw : Faultless s (.handler w)) (h : handlerStep E s w = some s') :
    Filled E s' := by
  have hH := hI.handler
  cases hp : s.hpc with
  | waitLength p | waitChunk p =>
      simp only [Channel.handlerStep, hp, State.waitHandler, Option.map_eq_some_iff] at h
      obtain ⟨⟨op, q⟩, hw, rfl⟩ := h
      cases q <;> exact hF.handler_alone hp rfl rfl (by simp)
  | branch =>
      simp only [Channel.handlerStep, hp] at h
      rw [hp] at hH
      split at h <;> obtain rfl := Option.some.inj h
      · exact hF.handler_alone hp rfl rfl (by simp)
      · exact hF.handler_alone hp rfl
          (by simp [State.cleared, HPc.inflight, hH.2.2.2]) (by simp)
  | loop =>
      simp only [Channel.handlerStep, hp, Option.some.injEq] at h
      subst h
      split <;> exact hF.handler_alone hp rfl rfl (by simp)
  | send =>
      simp only [Channel.handlerStep, hp, State.gfsSend, Option.some.injEq] at h
      have hres := hF.result_eq hsmall hI hp hw
      rw [if_neg (by simpa using hres)] at h
      subst h
      exact hF.handler_alone hp rfl rfl (by simp)
  | clear =>
      simp only [Channel.handlerStep, hp, Option.some.injEq] at h
      subst h
      obtain ⟨hwr, hcl, hww, hbo, hch, hre, har, -⟩ := hF
      simp only [hp, HPc.Ok] at hH
      simp only [State.cleared, hp, HPc.inflight, cond_false] at hcl
      refine ⟨le_rfl, ?_, hww, hbo, hch, hre, har, by simp⟩
      -- the chunk that is cleared now has been sent in full
      show 0 ≤ s.bytesTransferred + s.writeLen
      omega
  | reply =>
      simp only [Channel.handlerStep, hp, State.replyWith, Option.some.injEq] at h
      split at h <;> subst h <;>
        exact hF.handler_alone hp rfl rfl (by simp)
  | broadcastLength | broadcastChunk =>
      simp only [Channel.handlerStep, hp, Option.some.injEq] at h
      subst h
      exact hF.wakeWorker.handler_alone hp rfl rfl (by simp)
  | advance =>
      simp only [Channel.handlerStep, hp, Option.some.injEq] at h
      subst h
      exact hF.handler_alone hp rfl (by simp [State.cleared, HPc.inflight])
        (by simp)
  | createWritten | destroyWritten =>
      simp only [Channel.handlerStep, hp, Option.some.injEq] at h
      subst h
      obtain ⟨hwr, hcl, hww, hbo, hch, hre, har, -⟩ := hF
      simp only [State.cleared, hp, HPc.inflight] at hcl
      exact ⟨le_rfl, hcl, hww, hbo, hch, hre, har, by simp⟩
  | returned | failed => simp [Channel.handlerStep, hp] at h
  | _ =>
      simp only [Channel.handlerStep, hp, Option.some.injEq] at h
      subst h
      exact hF.handler_alone hp rfl rfl (by simp)

theorem Reported.handlerStep (hlen : 0 < E.fileLen) (hI : Inv E s) (hR : Reported E s)
    (h : handlerStep E s w = some s') : Reported E s' := by
  have hH := hI.handler
  obtain ⟨hhe, -⟩ := hR
  cases hp : s.hpc with
  | waitLength p | waitChunk p =>
      simp only [Channel.handlerStep, hp, State.waitHandler, Option.map_eq_some_iff] at h
      obtain ⟨⟨op, q⟩, hw, rfl⟩ := h
      rw [hp] at hhe
      cases q <;> exact ⟨hhe, by simp⟩
  | branch =>
      simp only [Channel.handlerStep, hp] at h
      simp only [hp, HPc.Ok] at hH
      rw [if_neg (by omega)] at h
      obtain rfl := Option.some.inj h
      rw [hp] at hhe
      exact ⟨by simp [hhe, HPc.announced, hH.2.2.1], by simp⟩
  | loop =>
      simp only [Channel.handlerStep, hp, Option.some.injEq] at h
      subst h
      rw [hp] at hhe
      split <;> exact ⟨hhe, by simp⟩
  | send =>
      simp only [Channel.handlerStep, hp, State.gfsSend, Option.some.injEq] at h
      rw [hp] at hhe
      split at h <;> subst h <;> exact ⟨hhe, by simp⟩
  | reply =>
      simp only [Channel.handlerStep, hp, State.replyWith, Option.some.injEq] at h
      simp only [hp, HPc.Ok] at hH
      rw [if_neg (by omega)] at h
      subst h
      rw [hp] at hhe
      exact ⟨hhe, by simp⟩
  | returned | failed => simp [Channel.handlerStep, hp] at h
  | _ =>
      simp only [Channel.handlerStep, hp, Option.some.injEq] at h
      subst h
      rw [hp] at hhe
      exact ⟨hhe, by simp⟩

theorem Filled.workerStep (hsmall : E.contents.length < 2 ^ 31)
    (hcap : 1 ≤ E.segmentSize - E.sizeofShmData - 1) (hI : Inv E s) (hF : Filled E s)
    (hw : Faultless s (.worker r)) (h : workerStep E s r = some s') : Filled E s' := by
  have hW := hI.worker
  have hww := hF.wWritten
  cases hp : s.wpc with
  | get =>
      simp only [Channel.workerStep, hp] at h
      split at h
      · obtain rfl := Option.some.inj h
        exact hF.worker_alone hp rfl hww rfl (by simp) (by simp [WPc.inflight])
      · cases h
  | waitLength p | waitSlot p =>
      simp only [Channel.workerStep, hp, State.waitWorker, Option.map_eq_some_iff] at h
      obtain ⟨⟨op, q⟩, hw, rfl⟩ := h
      cases q <;>
        exact hF.worker_alone hp rfl hww rfl (by simp) (by simp [WPc.inflight])
  | branch =>
      simp only [Channel.workerStep, hp] at h
      rw [hp] at hW
      split at h <;> obtain rfl := Option.some.inj h
      · exact hF.worker_alone hp rfl hww rfl (by simp) (by simp [WPc.inflight])
      · exact hF.worker_alone hp rfl le_rfl
          (by simp [State.published, WPc.inflight, hW.2.2.2.2]) (by simp) (by simp [WPc.inflight])
  | loop | checkLength =>
      simp only [Channel.workerStep, hp, Option.some.injEq] at h
      subst h
      split <;>
        exact hF.worker_alone hp rfl hww rfl (by simp) (by simp [WPc.inflight])
  | pread =>
      simp only [Channel.workerStep, hp] at h
      obtain ⟨hwr, hcl, hww, hbo, hch, hre, har, hal⟩ := hF
      split at h
      · next hok =>
          obtain rfl := Option.some.inj h
          simp only [State.published, hp, WPc.inflight] at hbo
          have hr := hw hp
          obtain hneg | ⟨_, _, hcount, hleft⟩ := hok
          · omega
          have hcountz := E.count_eq (by omega)
          have hseg := E.segmentSize_lt
          -- the chunk is `r` bytes long and stays inside the data area
          have hclen : (E.chunk s.wBytesWritten r).length = r.toNat := by
            rw [Env.chunk, List.length_take, List.length_drop]
            omega
          have hcint : cInt r = r := cInt_of_lt (by omega) (by omega)
          refine ⟨hwr, hcl, hww, hbo, fun _ => ?_, by simp [WPc.inflight], ?_, hal⟩
          · simp only [hcint]
            refine ⟨hr, hleft, ?_⟩
            rw [← hclen, List.take_left]
          · simp only [List.length_append, List.length_drop, hclen, har]
            omega
      · cases h
  | publish =>
      simp only [Channel.workerStep, hp, Option.some.injEq] at h
      subst h
      obtain ⟨hwr, hcl, hww, hbo, hch, hre, har, hal⟩ := hF
      obtain ⟨hpos, hle, _⟩ := hch hp
      exact ⟨by simp only; omega, hcl, hww, hle, by simp, fun _ => hpos, har, hal⟩
  | advance =>
      simp only [Channel.workerStep, hp, Option.some.injEq] at h
      subst h
      have hpos := hF.read (by rw [hp]; rfl)
      exact hF.worker_alone hp rfl (by simp only; omega)
        (by simp [State.published, WPc.inflight]) (by simp) (by simp [WPc.inflight])
  | signal =>
      simp only [Channel.workerStep, hp, Option.some.injEq] at h
      subst h
      exact hF.wakeHandler.worker_alone hp rfl hww rfl (by simp)
        fun _ => hF.read (by rw [hp]; rfl)
  | unlockSlot =>
      simp only [Channel.workerStep, hp, Option.some.injEq] at h
      subst h
      exact hF.worker_alone hp rfl hww rfl (by simp)
        fun _ => hF.read (by rw [hp]; rfl)
  | broadcastLength =>
      simp only [Channel.workerStep, hp, Option.some.injEq] at h
      subst h
      exact hF.wakeHandler.worker_alone hp rfl hww rfl (by simp)
        (by simp [WPc.inflight])
  | zeroWritten =>
      simp only [Channel.workerStep, hp, Option.some.injEq] at h
      subst h
      rw [hp] at hW
      exact hF.worker_alone hp (by rw [hW.2.2.2.1]) hww rfl (by simp)
        (by simp [WPc.inflight])
  | finished | exited => simp [Channel.workerStep, hp] at h
  | _ =>
      simp only [Channel.workerStep, hp, Option.some.injEq] at h
      subst h
      exact hF.worker_alone hp rfl hww rfl (by simp) (by simp [WPc.inflight])

/-- The worker reports nothing. -/
theorem Reported.workerStep (hR : Reported E s) (h : workerStep E s r = some s') :
    Reported E s' := by
  obtain ⟨hhe, hre⟩ := hR
  obtain ⟨⟨hbt, hheaders, _, hret⟩, hp⟩ := workerStep_frame h
  constructor
  · rcases hp with hp | hp <;> simpa [hheaders, hp] using hhe
  · rcases hp with hp | hp <;> simpa [hret, hbt, hp] using hre

theorem Filled.step {a : Act} (hsmall : E.contents.length < 2 ^ 31)
    (hcap : 1 ≤ E.segmentSize - E.sizeofShmData - 1) (hI : Inv E s) (hF : Filled E s)
    (ha : Faultless s a) (h : step E s a = some s') : Filled E s' := by
  cases a with
  | handler w => exact hF.handlerStep hsmall hI ha h
  | worker r => exact hF.workerStep hsmall hcap hI ha h
  | spuriousHandler =>
      obtain rfl := Option.some.inj h
      exact hF.wakeHandler
  | spuriousWorker =>
      obtain rfl := Option.some.inj h
      exact hF.wakeWorker

theorem Reported.step {a : Act} (hlen : 0 < E.fileLen) (hI : Inv E s) (hR : Reported E s)
    (h : step E s a = some s') : Reported E s' := by
  cases a with
  | handler w => exact hR.handlerStep hlen hI h
  | worker r => exact hR.workerStep h
  | spuriousHandler =>
      obtain rfl := Option.some.inj h
      obtain ⟨hhe, hret⟩ := hR
      exact ⟨by simpa using hhe, by simpa using hret⟩
  | spuriousWorker =>
      obtain rfl := Option.some.inj h
      obtain ⟨hhe, hret⟩ := hR
      exact ⟨hhe, hret⟩

theorem Reachable.filled (hsmall : E.contents.length < 2 ^ 31)
    (hcap : 1 ≤ E.segmentSize - E.sizeofShmData - 1) (h : Reachable E Faultless s) : Filled E s :=
  h.invariant_of (fun _ => Reachable.inv) (filled_init E) fun _ _ _ hI hF ha hs =>
    hF.step hsmall hcap hI ha hs

theorem Reachable.reported {ok : State → Act → Prop} (hlen : 0 < E.fileLen)
    (h : Reachable E ok s) : Reported E s :=
  h.invariant_of (fun _ => Reachable.inv) (reported_init E) fun _ _ _ hI hR _ hs =>
    hR.step hlen hI hs

end steps

section refinement

variable {E : Env} {s s' : State} {a : Act}

/-! ### Refinement of the hand-off -/

/-- The exchange as a hand-off: a chunk leaves the slot when it is sent. -/
def State.pipe (E : Env) (s : State) : Handoff.State Byte where
  out := s.body
  slot :=
    if s.bytesWritten = 0 ∨ s.hpc = .clear then none
    else some (s.data.take s.bytesWritten.toNat)
  rest := E.contents.drop s.published.toNat

theorem State.pipe_congr (hsends : s'.sends = s.sends) (hbw : s'.bytesWritten = s.bytesWritten)
    (hdata : s'.data = s.data) (hpub : s'.published = s.published)
    (hclear : s'.hpc = .clear ↔ s.hpc = .clear) : s'.pipe E = s.pipe E := by
  simp only [State.pipe, State.body, hsends, hbw, hdata, hpub, hclear]

theorem State.pipe_of_empty (h : s.bytesWritten = 0 ∨ s.hpc = .clear) :
    s.pipe E = ⟨s.body, none, E.contents.drop s.published.toNat⟩ := by
  simp only [State.pipe, if_pos h]

theorem State.pipe_of_full (hb : s.bytesWritten ≠ 0) (hp : s.hpc ≠ .clear) :
    s.pipe E = ⟨s.body, some (s.data.take s.bytesWritten.toNat),
      E.contents.drop s.published.toNat⟩ := by
  simp only [State.pipe, hb, hp, or_self, if_false]

/-- The abstract state stands still or makes one move. -/
def PipeMove (E : Env) (s s' : State) : Prop :=
  s'.pipe E = s.pipe E ∨ ∃ m, Handoff.step (s.pipe E) m = some (s'.pipe E)

/-- The handler clears a slot that is empty already, outside of `clear`. -/
theorem pipe_resetWritten (hb : s.bytesWritten = 0) (hbw : s'.bytesWritten = 0)
    (hsends : s'.sends = s.sends) (hpub : s'.published = s.published) :
    s'.pipe E = s.pipe E := by
  rw [State.pipe_of_empty (.inl hbw), State.pipe_of_empty (.inl hb), State.body, State.body,
    hsends, hpub]

theorem pipe_handlerStep {w : ℤ} (hsmall : E.contents.length < 2 ^ 31) (hI : Inv E s) (hF : Filled E s)
    (hw : Faultless s (.handler w)) (h : handlerStep E s w = some s') : PipeMove E s s' := by
  have hH := hI.handler
  cases hp : s.hpc with
  | createWritten =>
      simp only [Channel.handlerStep, hp, Option.some.injEq] at h
      subst h
      exact .inl (pipe_resetWritten (hI.empty_of_reset (.inl hp)) rfl rfl rfl)
  | waitLength p | waitChunk p =>
      simp only [Channel.handlerStep, hp, State.waitHandler, Option.map_eq_some_iff] at h
      obtain ⟨⟨op, q⟩, hq, rfl⟩ := h
      cases q <;> exact .inl (State.pipe_congr rfl rfl rfl rfl (by simp [hp]))
  | branch =>
      simp only [Channel.handlerStep, hp] at h
      split at h <;> obtain rfl := Option.some.inj h <;>
        exact .inl (State.pipe_congr rfl rfl rfl rfl (by simp [hp]))
  | loop =>
      simp only [Channel.handlerStep, hp, Option.some.injEq] at h
      subst h
      split <;> exact .inl (State.pipe_congr rfl rfl rfl rfl (by simp [hp]))
  | send =>
      simp only [Channel.handlerStep, hp, State.gfsSend, Option.some.injEq] at h
      have hres := hF.result_eq hsmall hI hp hw
      rw [if_neg (by simpa using hres)] at h
      subst h
      simp only [hp, HPc.Ok] at hH
      obtain ⟨_, _, _, _, hb, hr⟩ := hH
      have hlt := hF.bytesWritten_lt hsmall hI
      have hnn := hF.written
      have hsz : sizeT s.readLen = s.bytesWritten.toNat := by
        rw [hr, sizeT_of_nonneg hnn (by omega)]
      refine .inr ⟨.take, ?_⟩
      rw [State.pipe_of_full hb (by simp [hp]), State.pipe_of_empty (.inr rfl), Handoff.step]
      simp [State.body, hsz, State.published]
  | clear =>
      simp only [Channel.handlerStep, hp, Option.some.injEq] at h
      subst h
      refine .inl ?_
      rw [State.pipe_of_empty (.inl rfl), State.pipe_of_empty (.inr hp)]
      rfl
  | broadcastLength | broadcastChunk =>
      simp only [Channel.handlerStep, hp, Option.some.injEq] at h
      subst h
      exact .inl (State.pipe_congr rfl rfl rfl (by simp [State.published]) (by simp [hp]))
  | destroyWritten =>
      simp only [Channel.handlerStep, hp, Option.some.injEq] at h
      subst h
      exact .inl (pipe_resetWritten (hI.empty_of_destroy hp) rfl rfl rfl)
  | reply =>
      simp only [Channel.handlerStep, hp, State.replyWith, Option.some.injEq] at h
      split at h <;> subst h <;>
        exact .inl (State.pipe_congr rfl rfl rfl rfl (by simp [hp]))
  | returned | failed => simp [Channel.handlerStep, hp] at h
  | _ =>
      simp only [Channel.handlerStep, hp, Option.some.injEq] at h
      subst h
      exact .inl (State.pipe_congr rfl rfl rfl rfl (by simp [hp]))

theorem pipe_workerStep {r : ℤ} (hI : Inv E s) (hF : Filled E s) (h : workerStep E s r = some s') :
    PipeMove E s s' := by
  have hW := hI.worker
  cases hp : s.wpc with
  | get =>
      simp only [Channel.workerStep, hp, Option.ite_none_right_eq_some] at h
      obtain ⟨_, h⟩ := h
      obtain rfl := Option.some.inj h
      exact .inl (State.pipe_congr rfl rfl rfl (by simp [State.published, hp, WPc.inflight]) .rfl)
  | waitLength p | waitSlot p =>
      simp only [Channel.workerStep, hp, State.waitWorker, Option.map_eq_some_iff] at h
      obtain ⟨⟨op, q⟩, hq, rfl⟩ := h
      cases q <;> exact .inl (State.pipe_congr rfl rfl rfl
        (by simp [State.published, hp, WPc.inflight]) .rfl)
  | zeroWritten =>
      simp only [Channel.workerStep, hp, Option.some.injEq] at h
      subst h
      simp only [hp, WPc.Ok] at hW
      exact .inl (pipe_resetWritten hW.2.2.2.1 rfl rfl
        (by simp [State.published, hp, WPc.inflight]))
  | broadcastLength | signal =>
      simp only [Channel.workerStep, hp, Option.some.injEq] at h
      subst h
      exact .inl (State.pipe_congr rfl rfl rfl (by simp [State.published, hp, WPc.inflight])
        (by simp))
  | branch =>
      simp only [Channel.workerStep, hp] at h
      simp only [hp, WPc.Ok] at hW
      split at h <;> obtain rfl := Option.some.inj h <;>
        exact .inl (State.pipe_congr rfl rfl rfl
          (by simp [State.published, hp, WPc.inflight, hW.2.2.2.2]) .rfl)
  | loop | checkLength =>
      simp only [Channel.workerStep, hp, Option.some.injEq] at h
      subst h
      split <;> exact .inl (State.pipe_congr rfl rfl rfl
        (by simp [State.published, hp, WPc.inflight]) .rfl)
  | pread =>
      -- the data area is written while the slot is empty
      simp only [Channel.workerStep, hp, Option.ite_none_right_eq_some] at h
      obtain ⟨_, h⟩ := h
      obtain rfl := Option.some.inj h
      simp only [hp, WPc.Ok] at hW
      exact .inl (pipe_resetWritten hW.2.2.2.2 hW.2.2.2.2 rfl
        (by simp [State.published, hp, WPc.inflight]))
  | publish =>
      simp only [Channel.workerStep, hp, Option.some.injEq] at h
      subst h
      simp only [hp, WPc.Ok] at hW
      obtain ⟨hpos, _, hchunk⟩ := hF.chunk hp
      have hb : s.bytesWritten = 0 := hW.2.2.2.2
      have hclear : s.hpc ≠ .clear := by
        intro hc
        have hH := hI.handler
        rw [hc] at hH
        exact hH.2.2.2.2.1 hb
      have hww := hF.wWritten
      refine .inr ⟨.put s.wReadLen.toNat, ?_⟩
      rw [State.pipe_of_empty (.inl hb), State.pipe_of_full, Handoff.step]
      · simp only [State.body, State.published, hp, WPc.inflight, cond_true, cond_false, add_zero,
          hchunk, Env.chunk, List.drop_drop]
        rw [Int.toNat_add hww (by omega)]
      · show s.wReadLen ≠ 0
        omega
      · exact hclear
  | finished | exited => simp [Channel.workerStep, hp] at h
  | _ =>
      simp only [Channel.workerStep, hp, Option.some.injEq] at h
      subst h
      exact .inl (State.pipe_congr rfl rfl rfl (by simp [State.published, hp, WPc.inflight, State.unlock]) .rfl)

/-- **Every step of a faultless run stands still or moves in the hand-off.** -/
theorem pipe_step (hsmall : E.contents.length < 2 ^ 31) (hI : Inv E s) (hF : Filled E s) (ha : Faultless s a)
    (h : step E s a = some s') : PipeMove E s s' := by
  cases a with
  | handler w => exact pipe_handlerStep hsmall hI hF ha h
  | worker r => exact pipe_workerStep hI hF h
  | spuriousHandler =>
      obtain rfl := Option.some.inj h
      exact .inl (State.pipe_congr rfl rfl rfl rfl (by simp))
  | spuriousWorker =>
      obtain rfl := Option.some.inj h
      exact .inl (State.pipe_congr rfl rfl rfl (by simp [State.published]) .rfl)

/-- A faultless run is a run of the hand-off of the file. -/
theorem Reachable.handoff (hsmall : E.contents.length < 2 ^ 31)
    (hcap : 1 ≤ E.segmentSize - E.sizeofShmData - 1) (h : Reachable E Faultless s) :
    Reach Handoff.step Any (Handoff.init E.contents) (s.pipe E) := by
  have hinit : (init E).pipe E = Handoff.init E.contents := by
    simp [Handoff.init, State.pipe, init, State.body, State.published, WPc.inflight]
  rw [← hinit]
  apply h.map (State.pipe E)
  intro s a s' hr ha hs
  obtain heq | ⟨m, hm⟩ := pipe_step hsmall (Reachable.inv hr) (Reachable.filled hsmall hcap hr) ha hs
  · rw [heq]
    exact .refl
  · exact Reach.single trivial hm

end refinement

/-- **The transfer is exact.**  In every state of a faultless run over a non-empty file that an
`int` can measure, the body passed to `gfs_send` is a prefix of the file; when the handler has
returned it has sent one header `GF_OK` with the file's length and the whole file, and returns
that length. -/
theorem transfer_exact (E : Env) (f : List Byte) (s : State) (hfile : E.file = some f)
    (hpos : 1 ≤ f.length) (hsmall : f.length < 2 ^ 31)
    (hcap : 1 ≤ E.segmentSize - E.sizeofShmData - 1) (h : Reachable E Faultless s) :
    s.body <+: f ∧
      (s.Returned → s.headers = [(.ok, f.length)] ∧ s.body = f ∧ s.ret = some (f.length : ℤ)) := by
  have hcont : E.contents = f := by simp [Env.contents, hfile]
  have hlen : E.fileLen = f.length := by
    simp only [Env.fileLen, hfile]
    exact cInt_of_lt (by omega) (by omega)
  subst hcont
  have hpipe := h.handoff hsmall hcap
  have hI := h.inv
  have hF := h.filled hsmall hcap
  have hR := h.reported (by omega)
  refine ⟨Handoff.out_prefix_of_reach hpipe, fun hret => ?_⟩
  have hp : s.hpc = .returned := hret.resolve_right hF.alive
  have hH := hI.handler
  simp only [hp, HPc.Ok] at hH
  -- all of the file is cleared, so nothing is left in the slot or unpublished
  have hcount := hI.count
  have hbound := hF.bound
  have hbytes := hF.written
  simp only [State.cleared, hp, HPc.inflight, cond_false] at hcount
  have hslot : s.bytesWritten = 0 := by omega
  have hpub : s.published = E.contents.length := by omega
  refine ⟨?_, ?_, ?_⟩
  · rw [hR.header, hp, hlen, sizeT_natCast (by omega)]
    rfl
  · refine Handoff.out_eq_of_reach hpipe ?_ ?_
    · simp [State.pipe, hslot]
    · simp [State.pipe, hpub]
  · rw [hR.ret hp]
    congr 1
    omega

/-- Two bytes through a data area of two bytes, one byte a chunk. -/
def twoBytes : Env :=
  ⟨.pthread, proxyLayout, cacheLayout, 144, 146, some [7, 8], by decide⟩

/-- A complete run over `twoBytes` in which the sides take turns. -/
def twoBytesRun : List Act :=
  List.replicate 3 (.handler 1) ++ List.replicate 19 (.worker 1) ++
    List.replicate 16 (.handler 1) ++ List.replicate 8 (.worker 1) ++
    List.replicate 13 (.handler 1)

def twoBytesEnd : State :=
  (execOk (step twoBytes) Faultless (init twoBytes) twoBytesRun).getD (init twoBytes)

theorem transfer_exact_twoBytes :
    twoBytesEnd.Returned ∧ twoBytesEnd.body <+: [7, 8] ∧
      (twoBytesEnd.Returned → twoBytesEnd.headers = [(.ok, 2)] ∧ twoBytesEnd.body = [7, 8] ∧
        twoBytesEnd.ret = some 2) :=
  ⟨.inl (by decide +kernel), transfer_exact twoBytes [7, 8] twoBytesEnd rfl (by decide) (by decide)
    (by decide) (reach_of_execOk twoBytesRun rfl)⟩

end OsProjects.Channel
