import OsProjects.AnnouncedLength
import OsProjects.ProxyTurns
import OsProjects.Transfer

/-! # What the calls of the proxy answer

The whole proxy: any number of calls of `handle_with_cache`, a pool of segment ids that are used
again and again, shared memory objects behind them, and any number of workers that take messages in
any order.  It is granted that every message reaches its worker intact.

* `chan_step` — the step that an action makes in the exchange of a call.
* `Reachable.exchange` — a condition on these steps holds of the runs of all exchanges.
* `proxy_answers` — every call answers with its own file. -/

namespace OsProjects.Channel

open Transition

/-- What the client of a call is told: one header, the whole file, and its length is returned. -/
structure Answered (E : Env) (s : State) : Prop where
  header : s.headers = [E.fileHeader]
  body : s.body = E.contents
  ret : ∀ f, E.file = some f → s.ret = some (f.length : ℤ)

section answered
variable {E : Env} {s s' : State} {w r : ℤ}

/-! ### One exchange -/

/-- Nothing is announced of a file that is not there before the end. -/
def Refused (s : State) : Prop :=
  s.headers = if s.hpc = .returned then [(.fileNotFound, 0)] else []

theorem Refused.same (hR : Refused s) (hheaders : s'.headers = s.headers)
    (hret : s'.hpc = .returned ↔ s.hpc = .returned) : Refused s' := by
  unfold Refused at hR ⊢
  rw [hheaders, hR]
  simp only [hret]

theorem Refused.handlerStep (hfile : E.file = none) (hI : Inv E s) (hR : Refused s)
    (h : handlerStep E s w = some s') : Refused s' := by
  have hlen : E.fileLen = -1 := by simp [Env.fileLen, hfile]
  have hH := hI.handler
  cases hp : s.hpc with
  | waitLength p | waitChunk p =>
      simp only [Channel.handlerStep, hp, State.waitHandler, Option.map_eq_some_iff] at h
      obtain ⟨⟨op, q⟩, _, rfl⟩ := h
      cases q <;> exact hR.same rfl (by simp [hp])
  | branch =>
      simp only [hp, HPc.Ok] at hH
      simp only [Channel.handlerStep, hp] at h
      rw [if_pos (by omega)] at h
      obtain rfl := Option.some.inj h
      exact hR.same rfl (by simp [hp])
  | loop =>
      simp only [Channel.handlerStep, hp, Option.some.injEq] at h
      subst h
      refine hR.same rfl ?_
      split <;> simp [hp]
  | send =>
      simp only [Channel.handlerStep, hp, State.gfsSend, Option.some.injEq] at h
      split at h <;> subst h <;> exact hR.same rfl (by simp [hp])
  | reply =>
      simp only [hp, HPc.Ok] at hH
      simp only [Channel.handlerStep, hp, State.replyWith, Option.some.injEq] at h
      rw [if_pos (by omega)] at h
      subst h
      unfold Refused at hR ⊢
      simp [hR, hp]
  | returned | failed => simp [Channel.handlerStep, hp] at h
  | _ =>
      simp only [Channel.handlerStep, hp, Option.some.injEq] at h
      subst h
      exact hR.same rfl (by simp [hp])

theorem Refused.step {a : Act} (hfile : E.file = none) (hI : Inv E s) (hR : Refused s)
    (h : step E s a = some s') : Refused s' := by
  have hwake : s.hpc.wake = .returned ↔ s.hpc = .returned :=
    HPc.wake_eq_iff (by simp) (by simp)
  cases a with
  | handler w => exact hR.handlerStep hfile hI h
  | worker r =>
      obtain ⟨⟨_, hheaders, _, _⟩, hp⟩ := workerStep_frame h
      refine hR.same hheaders ?_
      obtain hp | hp := hp
      · rw [hp]
      · rw [hp]
        exact hwake
  | spuriousHandler =>
      obtain rfl := Option.some.inj h
      exact hR.same rfl hwake
  | spuriousWorker =>
      obtain rfl := Option.some.inj h
      exact hR.same rfl .rfl

theorem Reachable.refused {ok : State → Act → Prop} (hfile : E.file = none)
    (h : Reachable E ok s) : Refused s :=
  h.invariant_of (fun _ => Reachable.inv) (by simp [Refused, init]) fun _ _ _ hI hR _ hs =>
    hR.step hfile hI hs

theorem Reachable.body_prefix (hsmall : E.contents.length < 2 ^ 31)
    (hcap : 1 ≤ E.segmentSize - E.sizeofShmData - 1) (h : Reachable E Faultless s) :
    s.body <+: E.contents :=
  Handoff.out_prefix_of_reach (h.handoff hsmall hcap)

/-- A handler that has returned has sent the whole file. -/
theorem Reachable.body_eq (hsmall : E.contents.length < 2 ^ 31)
    (hcap : 1 ≤ E.segmentSize - E.sizeofShmData - 1) (h : Reachable E Faultless s)
    (hp : s.hpc = .returned) {f : List Byte} (hfile : E.file = some f) :
    s.body = f ∧ s.bytesTransferred = f.length := by
  have hcontents : E.contents = f := by simp [Env.contents, hfile]
  have hlen : E.fileLen = f.length := by
    rw [hcontents] at hsmall
    simp only [Env.fileLen, hfile]
    exact cInt_of_lt (by omega) (by omega)
  have hH := h.inv.handler
  have hcount := h.inv.count
  have hF := h.filled hsmall hcap
  have hbound := hF.bound
  have hbytes := hF.written
  rw [hcontents] at hbound
  simp only [hp, HPc.Ok] at hH
  simp only [State.cleared, hp, HPc.inflight, cond_false] at hcount
  refine ⟨?_, by omega⟩
  rw [← hcontents]
  apply Handoff.out_eq_of_reach (h.handoff hsmall hcap)
  · have hslot : s.bytesWritten = 0 := by omega
    simp [State.pipe, hslot]
  · have hall : E.contents.length ≤ s.published.toNat := by
      rw [hcontents]
      omega
    simpa [State.pipe] using hall

theorem Reachable.answered (hsmall : E.contents.length < 2 ^ 31)
    (hcap : 1 ≤ E.segmentSize - E.sizeofShmData - 1) (h : Reachable E Faultless s)
    (hp : s.hpc = .returned) : Answered E s := by
  cases hfile : E.file with
  | none =>
      have hcontents : E.contents = [] := by simp [Env.contents, hfile]
      refine ⟨?_, ?_, ?_⟩
      · rw [h.refused hfile, if_pos hp]
        simp [Env.fileHeader, hfile]
      · have hbegin := h.body_prefix hsmall hcap
        rw [hcontents] at hbegin ⊢
        exact List.prefix_nil.mp hbegin
      · intro f hf
        rw [hfile] at hf
        cases hf
  | some f =>
      have hcontents : E.contents = f := by simp [Env.contents, hfile]
      rw [hcontents] at hsmall
      have hlen : E.fileLen = f.length := by
        simp only [Env.fileLen, hfile]
        exact cInt_of_lt (by omega) (by omega)
      have hne : E.fileLen ≠ 0 := h.told.length (by rw [hp]; rfl)
      have hR := h.reported (by omega)
      obtain ⟨hbody, hbytes⟩ := h.body_eq (by rwa [hcontents]) hcap hp hfile
      refine ⟨?_, ?_, ?_⟩
      · rw [hR.header, hp, hlen, sizeT_natCast (by omega)]
        simp [HPc.announced, Env.fileHeader, hfile]
      · rw [hbody, hcontents]
      · intro g hg
        rw [hfile] at hg
        obtain rfl := Option.some.inj hg
        rw [hR.ret hp, hbytes]

end answered

end OsProjects.Channel

namespace OsProjects.Proxy

open Transition

variable {κ : Type*} [DecidableEq κ] {E : κ → Channel.Env} {s s' : State κ} {k : κ} {w : ℤ}

/-! ### The exchanges in a step of the proxy -/

/-- The step that an action makes in the exchange of its call. -/
def Act.inner : Act κ → Channel.Act
  | call _ w => .handler w
  | worker _ r => .worker r
  | spuriousCall _ => .spuriousHandler
  | spuriousWorker _ => .spuriousWorker

theorem chan_callStep (hO : (s.calls k).Ok) (h : callStep E s k w = some s') :
    (s'.calls k).chan = (s.calls k).chan ∨
      Channel.handlerStep (E k) (s.calls k).chan w = some (s'.calls k).chan := by
  unfold callStep at h
  cases hp : (s.calls k).pc with
  | waitSegment p | waitRoom p =>
      simp only [hp, State.wait, Option.map_eq_some_iff] at h
      obtain ⟨_, _, rfl⟩ := h
      exact .inl (by simp)
  | pop =>
      simp only [hp] at h
      split at h <;> obtain rfl := Option.some.inj h <;> exact .inl (by simp)
  | body =>
      simp only [hp] at h
      split at h
      · obtain rfl := Option.some.inj h
        exact .inl (by simp)
      · obtain ⟨ch, hch, rfl⟩ := Option.map_eq_some_iff.mp h
        exact .inr (by simpa using hch)
  | broadcastRead =>
      simp only [hp, Option.some.injEq] at h
      subst h
      unfold Call.Ok at hO
      simp only [hp] at hO
      exact .inr (by simp [Channel.handlerStep, hO.1])
  | _ =>
      simp only [hp, Option.some.injEq] at h
      subst h
      exact .inl (by simp)

/-- The exchange of a call is not touched, or it makes the step of an action that belongs to it. -/
theorem chan_step {a : Act κ} (hO : ∀ k, (s.calls k).Ok) (h : step E s a = some s') (k : κ) :
    (s'.calls k).chan = (s.calls k).chan ∨
      k = a.subject ∧ Channel.step (E k) (s.calls k).chan a.inner = some (s'.calls k).chan := by
  rcases eq_or_ne k a.subject with rfl | hk
  · unfold step at h
    split at h
    · cases h
    · cases a with
      | call k w => exact (chan_callStep (hO k) h).imp_right fun hch => ⟨rfl, hch⟩
      | worker k r =>
          obtain ⟨ch, hch, rfl⟩ := Option.map_eq_some_iff.mp h
          refine .inr ⟨rfl, ?_⟩
          simpa [Act.subject, Act.inner, Channel.step] using hch
      | spuriousCall k | spuriousWorker k =>
          obtain rfl := Option.some.inj h
          refine .inr ⟨rfl, ?_⟩
          simp [Act.subject, Act.inner, Channel.step]
  · obtain heq | heq | heq := step_frame h k hk <;> rw [heq] <;> exact .inl rfl

end OsProjects.Proxy

namespace OsProjects.SharedMemory

open Transition

variable {κ ω : Type*} [DecidableEq κ] [DecidableEq ω]
variable {segments : ℕ} {E : κ → Channel.Env} {s : State κ ω} {k : κ}
variable {ok : Channel.State → Channel.Act → Prop}

/-! ### The exchanges in a step of the whole proxy -/

/-- The exchange of call `k`, with its object as the segment. -/
def State.exchange (E : κ → Channel.Env) (s : State κ ω) (k : κ) : Channel.State :=
  ((s.view E).calls k).chan

/-- The step that an action makes in the exchange of its call meets `ok`. -/
def Meets (E : κ → Channel.Env) (ok : Channel.State → Channel.Act → Prop) (s : State κ ω)
    (a : Act κ ω) : Prop :=
  ∀ b ∈ a.below s, ok (s.exchange E b.subject) b.inner

instance [∀ c b, Decidable (ok c b)] (s : State κ ω) (a : Act κ ω) : Decidable (Meets E ok s a) :=
  inferInstanceAs (Decidable (∀ b ∈ a.below s, _))

/-- The exchange of every call is a run that meets the condition. -/
theorem Reachable.exchange (h : Reach (step E) (Meets E ok) (init segments E) s) (k : κ) :
    Channel.Reachable (E k) ok (s.exchange E k) := by
  induction h with
  | refl => exact .refl
  | step hr ha hs ih =>
      obtain ⟨hN, hR⟩ := Reachable.names (hr.imp fun _ _ _ _ => trivial)
      obtain hsame | ⟨b, hb, hstep⟩ := (turn_step hN hR hs).view
      · rw [State.exchange, hsame]
        exact ih
      · obtain hchan | ⟨rfl, hchan⟩ := Proxy.chan_step hR.callOk hstep k
        · rw [State.exchange, hchan]
          exact ih
        · exact ih.step (ha b hb) hchan

/-- **Every call answers with its own file**, whatever the others do, if the messages are handed over
intact as in the model of the shared memory: in every run in which no send is short and `pread`
reads at least a byte, with any number of calls, segments and workers, a call has sent a beginning
of its own file under no other header than the one for that file; and when it has returned it has
sent that header once and the whole file, and returns its length. -/
theorem proxy_answers (segments : ℕ) (E : κ → Channel.Env) (s : State κ ω)
    (h : Reach (step E) (Meets E Channel.Faultless) (init segments E) s) (k : κ)
    (hsmall : (E k).contents.length < 2 ^ 31)
    (hcap : 1 ≤ (E k).segmentSize - (E k).sizeofShmData - 1) :
    (s.proxy.calls k).chan.body <+: (E k).contents ∧
    (∀ x ∈ (s.proxy.calls k).chan.headers, x = (E k).fileHeader) ∧
    (s.proxy.calls k).chan.hpc ≠ .failed ∧
    ((s.proxy.calls k).chan.hpc = .returned → Channel.Answered (E k) (s.proxy.calls k).chan) := by
  have hk := Reachable.exchange h k
  have hbody := hk.body_prefix hsmall hcap
  have halive := (hk.filled hsmall hcap).alive
  refine ⟨hbody, fun x hx => ?_, halive, fun hp => ?_⟩
  · rw [(hk.told.headers x hx).2]
    apply (E k).lengthHeader_eq_iff.mpr
    intro f hf
    simpa [Channel.Env.contents, hf] using hsmall
  · obtain ⟨hheader, hbody, hret⟩ := hk.answered hsmall hcap hp
    exact ⟨hheader, hbody, hret⟩

/-- Call `false` is for a file of one byte, call `true` for one that is not there. -/
def twoFiles (missing : Bool) : Channel.Env :=
  ⟨.pthread, Channel.proxyLayout, Channel.cacheLayout, 144, 1024,
    bif missing then none else some [7], Channel.kilobyte_lt⟩

/-- One segment and one worker, for both calls in turn. -/
def twoFilesRun : List (Act Bool Unit) :=
  List.replicate 15 (.call false 1) ++ .receive () 0 :: List.replicate 21 (.worker () 1) ++
    List.replicate 28 (.call false 1) ++ List.replicate 15 (.call true 1) ++
      .receive () 0 :: List.replicate 12 (.worker () 1) ++ List.replicate 18 (.call true 5)

def twoFilesEnd : State Bool Unit :=
  (execOk (step twoFiles) (Meets twoFiles Channel.Faultless) (init 1 twoFiles)
    twoFilesRun).getD (init 1 twoFiles)

theorem proxy_answers_two :
    Channel.Answered (twoFiles false) (twoFilesEnd.proxy.calls false).chan ∧
      Channel.Answered (twoFiles true) (twoFilesEnd.proxy.calls true).chan := by
  have hreach : Reach (step twoFiles) (Meets twoFiles Channel.Faultless) (init 1 twoFiles)
      twoFilesEnd := reach_of_isSome_execOk twoFilesRun (by decide +kernel)
  obtain ⟨_, _, _, hone⟩ := proxy_answers 1 twoFiles twoFilesEnd hreach false (by decide) (by decide)
  obtain ⟨_, _, _, hnone⟩ := proxy_answers 1 twoFiles twoFilesEnd hreach true (by decide) (by decide)
  exact ⟨hone (by decide +kernel), hnone (by decide +kernel)⟩

end OsProjects.SharedMemory
