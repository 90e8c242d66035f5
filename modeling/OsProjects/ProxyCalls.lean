import OsProjects.ChannelInv
import OsProjects.Proxy

/-! # The calls of the proxy one by one

What a step of the proxy does to a call: its own step moves it from one assertion to the next
(`Call.Ok`), a step of another call wakes it at most (`step_frame`).  Its exchange with its
worker is a run of `Channel.lean` (`Reachable.exchanges`), so the results about one segment hold
of every call in every run of the proxy. -/

namespace OsProjects.Proxy

open Monitor Transition

variable {κ : Type*} [DecidableEq κ]

/-! ### Views of a call -/

/-- The call holds `fldes_mutex`. -/
def CallPc.holds : CallPc → Bool
  | waitSegment w | waitRoom w => w.holds
  | pop | decrement | unlockPop | enqueue | increment | unlockPut => true
  | _ => false

/-- `destroy_shm_seg` is over. -/
def released : Channel.HPc → Bool
  | .reply | .returned => true
  | _ => false

/-- The call has popped its id and not enqueued it; `gone` says whether `destroy_shm_seg` is
over. -/
def CallPc.owns (gone : Bool) : CallPc → Bool
  | decrement | unlockPop | broadcastWrite | waitRoom _ | enqueue => true
  | body => !gone
  | _ => false

/-- The id that the call owns. -/
def Call.held (c : Call) : Option (List Byte) :=
  bif c.pc.owns (released c.chan.hpc) then some c.fldes else none

@[simp] theorem CallPc.holds_wakeRead (p : CallPc) : p.wakeRead.holds = p.holds := by
  cases p <;> simp [wakeRead, holds]

@[simp] theorem CallPc.holds_wakeWrite (p : CallPc) : p.wakeWrite.holds = p.holds := by
  cases p <;> simp [wakeWrite, holds]

@[simp] theorem CallPc.owns_wakeRead (b : Bool) (p : CallPc) : p.wakeRead.owns b = p.owns b := by
  cases p <;> rfl

@[simp] theorem CallPc.owns_wakeWrite (b : Bool) (p : CallPc) :
    p.wakeWrite.owns b = p.owns b := by
  cases p <;> rfl

@[simp] theorem released_wake (p : Channel.HPc) : released p.wake = released p := by
  cases p <;> rfl

variable {segments : ℕ} {E : κ → Channel.Env} {s s' : State κ} {k : κ} {c : Call} {w : ℤ}

/-! ### The calls one by one -/

/-- What holds of a call at each of its program points. -/
def Call.Ok (c : Call) : Prop :=
  match c.pc with
  | .idle | .waitSegment _ | .pop | .decrement =>
      c.chan.hpc = .createLength ∧ c.enqueued = [] ∧ c.sizeDelta = 0
  | .unlockPop | .broadcastWrite =>
      c.chan.hpc = .createLength ∧ c.enqueued = [] ∧ c.sizeDelta = -1
  | .body =>
      if released c.chan.hpc then c.enqueued = [c.fldes] ∧ c.sizeDelta = 0
      else c.enqueued = [] ∧ c.sizeDelta = -1
  | .waitRoom _ | .enqueue =>
      c.chan.hpc = .release ∧ c.enqueued = [] ∧ c.sizeDelta = -1
  | .increment => c.chan.hpc = .release ∧ c.enqueued = [c.fldes] ∧ c.sizeDelta = -1
  | .unlockPut | .broadcastRead =>
      c.chan.hpc = .release ∧ c.enqueued = [c.fldes] ∧ c.sizeDelta = 0

/-- The call is as before, or has been woken. -/
def Woken (c c' : Call) : Prop :=
  c' = c ∨ c' = { c with pc := c.pc.wakeRead } ∨ c' = { c with pc := c.pc.wakeWrite }

theorem Woken.held {c c' : Call} (h : Woken c c') : c'.held = c.held := by
  obtain rfl | rfl | rfl := h <;> simp [Call.held]

theorem Woken.holds {c c' : Call} (h : Woken c c') : c'.pc.holds = c.pc.holds := by
  obtain rfl | rfl | rfl := h <;> simp

theorem Woken.ok {c c' : Call} (h : Woken c c') (hc : c.Ok) : c'.Ok := by
  obtain rfl | rfl | rfl := h
  · exact hc
  · unfold Call.Ok at hc ⊢
    cases hp : c.pc <;> simpa [hp, CallPc.wakeRead] using hc
  · unfold Call.Ok at hc ⊢
    cases hp : c.pc <;> simpa [hp, CallPc.wakeWrite] using hc

/-- The call that an action belongs to. -/
def Act.subject : Act κ → κ
  | call k _ | worker k _ | spuriousCall k | spuriousWorker k => k

/-- A step of one call wakes the others at most. -/
theorem callStep_frame (h : callStep E s k w = some s') :
    ∀ j ≠ k, Woken (s.calls j) (s'.calls j) := by
  intro j hj
  unfold callStep at h
  cases hp : (s.calls k).pc with
  | waitSegment p | waitRoom p =>
      simp only [hp, State.wait, Option.map_eq_some_iff] at h
      obtain ⟨_, _, rfl⟩ := h
      exact .inl (setCall_of_ne _ _ _ hj)
  | pop =>
      simp only [hp] at h
      split at h <;> obtain rfl := Option.some.inj h
      · exact .inl rfl
      · exact .inl (setCall_of_ne _ _ _ hj)
  | body =>
      simp only [hp] at h
      split at h
      · obtain rfl := Option.some.inj h
        exact .inl (setCall_of_ne _ _ _ hj)
      · obtain ⟨_, _, rfl⟩ := Option.map_eq_some_iff.mp h
        exact .inl (setCall_of_ne _ _ _ hj)
  | broadcastWrite =>
      simp only [hp, Option.some.injEq] at h
      subst h
      exact .inr (.inr (setCall_of_ne _ _ _ hj))
  | broadcastRead =>
      simp only [hp, Option.some.injEq] at h
      subst h
      exact .inr (.inl (setCall_of_ne _ _ _ hj))
  | _ =>
      simp only [hp, Option.some.injEq] at h
      subst h
      exact .inl (setCall_of_ne _ _ _ hj)

theorem step_frame {a : Act κ} (h : step E s a = some s') :
    ∀ j ≠ a.subject, Woken (s.calls j) (s'.calls j) := by
  intro j hj
  unfold step at h
  split at h
  · cases h
  · cases a with
    | call k w => exact callStep_frame h j hj
    | worker k r =>
        obtain ⟨_, _, rfl⟩ := Option.map_eq_some_iff.mp h
        exact .inl (setCall_of_ne _ _ _ hj)
    | spuriousCall k =>
        obtain rfl := Option.some.inj h
        exact .inl (setCall_of_ne _ _ _ hj)
    | spuriousWorker k =>
        obtain rfl := Option.some.inj h
        exact .inl (setCall_of_ne _ _ _ hj)

/-- `destroy_shm_seg` ends at `release` only. -/
theorem released_handlerStep {E : Channel.Env} {c ch : Channel.State} {w : ℤ}
    (h : Channel.handlerStep E c w = some ch) (hr : c.hpc ≠ .release) :
    released ch.hpc = released c.hpc := by
  unfold Channel.handlerStep at h
  cases hp : c.hpc with
  | waitLength p | waitChunk p =>
      simp only [hp, Channel.State.waitHandler, Option.map_eq_some_iff] at h
      obtain ⟨⟨_, q⟩, _, rfl⟩ := h
      cases q <;> rfl
  | branch =>
      simp only [hp] at h
      split at h <;> obtain rfl := Option.some.inj h <;> rfl
  | loop =>
      simp only [hp, Option.some.injEq] at h
      subst h
      split <;> rfl
  | send =>
      simp only [hp, Channel.State.gfsSend, Option.some.injEq] at h
      split at h <;> subst h <;> rfl
  | reply =>
      simp only [hp, Channel.State.replyWith, Option.some.injEq] at h
      split at h <;> subst h <;> rfl
  | release => exact absurd hp hr
  | returned | failed => simp [hp] at h
  | _ =>
      simp only [hp, Option.some.injEq] at h
      subst h
      rfl

/-- The worker wakes the handler at most. -/
theorem hpc_workerStep {E : Channel.Env} {c ch : Channel.State} {r : ℤ}
    (h : Channel.workerStep E c r = some ch) : ch.hpc = c.hpc ∨ ch.hpc = c.hpc.wake := by
  unfold Channel.workerStep at h
  cases hp : c.wpc with
  | waitLength p | waitSlot p =>
      simp only [hp, Channel.State.waitWorker, Option.map_eq_some_iff] at h
      obtain ⟨_, _, rfl⟩ := h
      exact .inl rfl
  | get | pread =>
      simp only [hp, Option.ite_none_right_eq_some] at h
      obtain ⟨_, h⟩ := h
      obtain rfl := Option.some.inj h
      exact .inl rfl
  | branch =>
      simp only [hp] at h
      split at h <;> obtain rfl := Option.some.inj h <;> exact .inl rfl
  | broadcastLength | signal =>
      simp only [hp, Option.some.injEq] at h
      subst h
      exact .inr rfl
  | finished | exited => simp [hp] at h
  | _ =>
      simp only [hp, Option.some.injEq] at h
      subst h
      exact .inl rfl

/-- A call is not touched by a wakeup of its handler or a step of its worker. -/
theorem Call.Ok.setChan {c : Call} (ch : Channel.State) (hc : c.Ok)
    (h : ch.hpc = c.chan.hpc ∨ ch.hpc = c.chan.hpc.wake) : ({ c with chan := ch } : Call).Ok := by
  have hiff : ∀ q, (∀ v, q ≠ Channel.HPc.waitLength v) → (∀ v, q ≠ Channel.HPc.waitChunk v) →
      c.chan.hpc = q → ch.hpc = q := by
    intro q hl hk hq
    obtain h | h := h
    · rw [h, hq]
    · rw [h, Channel.HPc.wake_eq_iff hl hk, hq]
  have hrel : released ch.hpc = released c.chan.hpc := by
    obtain h | h := h <;> rw [h]
    exact released_wake _
  unfold Call.Ok at hc ⊢
  cases hp : c.pc <;> simp only [hp, hrel] at hc ⊢
  case body => exact hc
  all_goals exact ⟨hiff _ (by simp) (by simp) hc.1, hc.2⟩

theorem Call.Ok.callStep (hc : (s.calls k).Ok) (h : callStep E s k w = some s') :
    (s'.calls k).Ok := by
  unfold Proxy.callStep at h
  unfold Call.Ok at hc
  cases hp : (s.calls k).pc with
  | waitSegment p | waitRoom p =>
      simp only [hp, State.wait, Option.map_eq_some_iff] at h
      obtain ⟨⟨_, q⟩, _, rfl⟩ := h
      simp only [hp] at hc
      cases q <;> simpa [Call.Ok] using hc
  | pop =>
      simp only [hp] at h hc
      split at h <;> obtain rfl := Option.some.inj h
      · simpa [Call.Ok, hp] using hc
      · simpa [Call.Ok] using hc
  | body =>
      simp only [hp] at h hc
      split at h
      · next hr =>
          obtain rfl := Option.some.inj h
          simpa [Call.Ok, hr, released] using hc
      · next hr =>
          obtain ⟨ch, hch, rfl⟩ := Option.map_eq_some_iff.mp h
          simpa [Call.Ok, hp, released_handlerStep hch hr] using hc
  | _ =>
      simp only [hp, Option.some.injEq] at h hc
      subst h
      obtain ⟨h₁, h₂, h₃⟩ := hc
      simp [Call.Ok, released, h₁, h₂, h₃]

theorem Call.Ok.step {a : Act κ} (hO : ∀ k, (s.calls k).Ok) (h : step E s a = some s') (k : κ) :
    (s'.calls k).Ok := by
  rcases eq_or_ne k a.subject with rfl | hk
  · unfold Proxy.step at h
    split at h
    · cases h
    · cases a with
      | call k w => exact (hO k).callStep h
      | worker k r =>
          obtain ⟨ch, hch, rfl⟩ := Option.map_eq_some_iff.mp h
          simpa [Act.subject] using (hO k).setChan ch (hpc_workerStep hch)
      | spuriousCall k =>
          obtain rfl := Option.some.inj h
          have h₁ := (Woken.ok (.inr (.inl rfl)) (hO k) : Call.Ok _)
          have h₂ := (Woken.ok (.inr (.inr rfl)) h₁ : Call.Ok _)
          have h₃ := h₂.setChan { (s.calls k).chan with hpc := (s.calls k).chan.hpc.wake }
            (.inr rfl)
          simpa [Act.subject] using h₃
      | spuriousWorker k =>
          obtain rfl := Option.some.inj h
          have h₁ := (hO k).setChan { (s.calls k).chan with wpc := (s.calls k).chan.wpc.wake }
            (.inl rfl)
          simpa [Act.subject] using h₁
  · exact (step_frame h k hk).ok (hO k)

theorem Reachable.callOk (h : Reachable segments E s) : ∀ k, (s.calls k).Ok :=
  h.invariant (fun _ => ⟨rfl, rfl, rfl⟩) fun _ _ _ hO _ hs => Call.Ok.step hO hs

/-! ### The exchanges -/

/-- The exchange of every call is a run of `Channel.lean`. -/
def Exchanges (E : κ → Channel.Env) (s : State κ) : Prop :=
  ∀ k, Channel.Reachable (E k) Any (s.calls k).chan

theorem Exchanges.callStep (hO : (s.calls k).Ok) (hE : Exchanges E s)
    (h : callStep E s k w = some s') : Channel.Reachable (E k) Any (s'.calls k).chan := by
  have hk := hE k
  unfold Proxy.callStep at h
  cases hp : (s.calls k).pc with
  | waitSegment p | waitRoom p =>
      simp only [hp, State.wait, Option.map_eq_some_iff] at h
      obtain ⟨_, _, rfl⟩ := h
      simpa using hk
  | pop =>
      simp only [hp] at h
      split at h <;> obtain rfl := Option.some.inj h
      · exact hk
      · simpa using hk
  | body =>
      simp only [hp] at h
      split at h
      · obtain rfl := Option.some.inj h
        simpa using hk
      · obtain ⟨ch, hch, rfl⟩ := Option.map_eq_some_iff.mp h
        have hstep : Channel.step (E k) (s.calls k).chan (.handler w) = some ch := hch
        simpa using hk.step trivial hstep
  | broadcastRead =>
      simp only [hp, Option.some.injEq] at h
      subst h
      unfold Call.Ok at hO
      simp only [hp] at hO
      have hstep : Channel.step (E k) (s.calls k).chan (.handler w) =
          some { (s.calls k).chan with hpc := .reply } := by
        simp [Channel.step, Channel.handlerStep, hO.1]
      simpa using hk.step trivial hstep
  | _ =>
      simp only [hp, Option.some.injEq] at h
      subst h
      simpa using hk

theorem Exchanges.step {a : Act κ} (hO : ∀ k, (s.calls k).Ok) (hE : Exchanges E s)
    (h : step E s a = some s') : Exchanges E s' := by
  intro k
  have hframe := step_frame h
  rcases eq_or_ne k a.subject with rfl | hk
  · unfold Proxy.step at h
    split at h
    · cases h
    · cases a with
      | call k w => exact hE.callStep (hO k) h
      | worker k r =>
          obtain ⟨ch, hch, rfl⟩ := Option.map_eq_some_iff.mp h
          have hstep : Channel.step (E k) (s.calls k).chan (.worker r) = some ch := hch
          simpa [Act.subject] using (hE k).step trivial hstep
      | spuriousCall k =>
          obtain rfl := Option.some.inj h
          have hstep : Channel.step (E k) (s.calls k).chan .spuriousHandler =
            some { (s.calls k).chan with hpc := (s.calls k).chan.hpc.wake } := rfl
          simpa [Act.subject] using (hE k).step trivial hstep
      | spuriousWorker k =>
          obtain rfl := Option.some.inj h
          have hstep : Channel.step (E k) (s.calls k).chan .spuriousWorker =
            some { (s.calls k).chan with wpc := (s.calls k).chan.wpc.wake } := rfl
          simpa [Act.subject] using (hE k).step trivial hstep
  · obtain heq | heq | heq := hframe k hk <;> rw [heq] <;> exact hE k

theorem Reachable.exchanges (h : Reachable segments E s) : Exchanges E s :=
  h.invariant_of (fun _ => Reachable.callOk) (fun _ => .refl) fun _ _ _ hO hE _ hs =>
    hE.step hO hs

end OsProjects.Proxy
