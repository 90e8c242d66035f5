import OsProjects.ProxyCalls
import OsProjects.SharedMemory

/-! # The steps of the shared memory model

* `frame_handlerStep`, `frame_workerStep` — what a step of a side does to the other one, and that a
  step that is not marked as a write leaves the two fields alone.
* `State.view` — the proxy of `Proxy.lean` with the object of every call as its segment;
  `callStep_mapChan` for the steps that do not touch the memory.
* `move_step` — what a step can do, by name (`Move`). -/

namespace OsProjects.Channel

/-- What a step of the handler leaves alone, apart from a broadcast. -/
structure HandlerFrame (c ch : State) : Prop where
  wpc : ch.wpc = if c.hpc.broadcasts then c.wpc.wake else c.wpc
  sent : ch.sent = true ↔ c.sent = true ∨ c.hpc = .mqSend
  length : c.hpc.writesLength = false → ch.fileLength = c.fileLength
  written : c.hpc.writesWritten = false → ch.bytesWritten = c.bytesWritten

theorem frame_handlerStep {E : Env} {c ch : State} {w : ℤ} (h : handlerStep E c w = some ch) :
    HandlerFrame c ch := by
  unfold handlerStep at h
  cases hp : c.hpc with
  | waitLength p | waitChunk p =>
      simp only [hp, State.waitHandler, Option.map_eq_some_iff] at h
      obtain ⟨_, _, rfl⟩ := h
      constructor <;> simp [hp, HPc.broadcasts]
  | branch =>
      simp only [hp] at h
      split at h <;> obtain rfl := Option.some.inj h <;> constructor <;> simp [hp, HPc.broadcasts]
  | send =>
      simp only [hp, State.gfsSend, Option.some.injEq] at h
      split at h <;> subst h <;> constructor <;> simp [hp, HPc.broadcasts]
  | reply =>
      simp only [hp, State.replyWith, Option.some.injEq] at h
      split at h <;> subst h <;> constructor <;> simp [hp, HPc.broadcasts]
  | returned | failed => simp [hp] at h
  | _ =>
      simp only [hp, Option.some.injEq] at h
      subst h
      constructor <;> simp [hp, HPc.broadcasts, HPc.writesLength, HPc.writesWritten, State.unlock]

/-- What a step of the worker leaves alone, apart from a signal. -/
structure WorkerFrame (c ch : State) : Prop where
  hpc : ch.hpc = if c.wpc.signals then c.hpc.wake else c.hpc
  sent : ch.sent = c.sent
  length : c.wpc.writesLength = false → ch.fileLength = c.fileLength
  written : c.wpc.writesWritten = false → ch.bytesWritten = c.bytesWritten

theorem frame_workerStep {E : Env} {c ch : State} {r : ℤ} (h : workerStep E c r = some ch) :
    WorkerFrame c ch := by
  unfold workerStep at h
  cases hp : c.wpc with
  | waitLength p | waitSlot p =>
      simp only [hp, State.waitWorker, Option.map_eq_some_iff] at h
      obtain ⟨_, _, rfl⟩ := h
      constructor <;> simp [hp, WPc.signals]
  | get | pread =>
      simp only [hp, Option.ite_none_right_eq_some] at h
      obtain ⟨_, h⟩ := h
      obtain rfl := Option.some.inj h
      constructor <;> simp [hp, WPc.signals]
  | branch =>
      simp only [hp] at h
      split at h <;> obtain rfl := Option.some.inj h <;> constructor <;> simp [hp, WPc.signals]
  | finished | exited => simp [hp] at h
  | _ =>
      simp only [hp, Option.some.injEq] at h
      subst h
      constructor <;> simp [hp, WPc.signals, WPc.writesLength, WPc.writesWritten, State.unlock]

end OsProjects.Channel

namespace OsProjects.SharedMemory

open Monitor Transition

variable {κ ω : Type*} [DecidableEq κ]
variable {segments : ℕ} {E : κ → Channel.Env} {s s' : State κ ω} {k : κ} {w : ℤ}

/-! ### The calls with their objects -/

/-- The object of a call; before it has made one, a zero-filled one. -/
def State.object (E : κ → Channel.Env) (s : State κ ω) (k : κ) : Object κ :=
  (s.mem k).elim (zeroFilled (E k)) s.objects

/-- The proxy of `Proxy.lean`: every call with the object it made as its segment. -/
def State.view (E : κ → Channel.Env) (s : State κ ω) : Proxy.State κ :=
  mapChan (fun k => (s.object E k).view) s.proxy

omit [DecidableEq κ] in
theorem proxy_ext {p q : Proxy.State κ} (hqueue : p.fldesQueue = q.fldesQueue)
    (hsize : p.fldesQueueSize = q.fldesQueueSize)
    (hmax : p.maxFldesQueueSize = q.maxFldesQueueSize) (hmutex : p.fldesMutex = q.fldesMutex)
    (hexited : p.exited = q.exited) (hcalls : ∀ j, p.calls j = q.calls j) : p = q := by
  obtain ⟨_, _, _, _, _, _⟩ := p
  obtain ⟨_, _, _, _, _, _⟩ := q
  congr 1
  exact funext hcalls

/-- A step inside of the exchange. -/
theorem callStep_body {p : Proxy.State κ} (hp : (p.calls k).pc = .body)
    (hr : (p.calls k).chan.hpc ≠ .release) :
    Proxy.callStep E p k w = (Channel.handlerStep (E k) (p.calls k).chan w).map fun ch =>
      p.setCall k { p.calls k with chan := ch } := by
  unfold Proxy.callStep
  simp only [hp, if_neg hr]

theorem callStep_release {p : Proxy.State κ} (hp : (p.calls k).pc = .body)
    (hr : (p.calls k).chan.hpc = .release) :
    Proxy.callStep E p k w = some (p.setCall k { p.calls k with pc := .waitRoom .lock }) := by
  unfold Proxy.callStep
  simp only [hp, if_pos hr]

theorem mapChan_setCall (f : κ → Channel.State → Channel.State) (p : Proxy.State κ) (k : κ)
    (c : Proxy.Call) :
    (mapChan f p).setCall k { c with chan := f k c.chan } = mapChan f (p.setCall k c) := by
  refine proxy_ext rfl rfl rfl rfl rfl fun j => ?_
  rcases eq_or_ne j k with rfl | hj
  · simp [mapChan]
  · simp [mapChan, Proxy.setCall_of_ne _ _ _ hj]

omit [DecidableEq κ] in
/-- The last step of the exchange does not touch the object. -/
theorem handlerStep_view {E : Channel.Env} {o : Object κ} {c ch : Channel.State} {w : ℤ}
    (hr : Proxy.released c.hpc = true) (h : Channel.handlerStep E c w = some ch) :
    Channel.handlerStep E (o.view c) w = some (o.view ch) := by
  unfold Channel.handlerStep at h ⊢
  cases hp : c.hpc with
  | reply =>
      simp only [Object.view, hp, Channel.State.replyWith, Option.some.injEq] at h ⊢
      subst h
      split <;> rfl
  | returned => simp [hp] at h
  | _ => simp [hp, Proxy.released] at hr

omit [DecidableEq κ] in
/-- The first step of a worker does not touch the object. -/
theorem workerStep_get_view {E : Channel.Env} (o : Object κ) {c ch : Channel.State} {r : ℤ}
    (hp : c.wpc = .get) (h : Channel.workerStep E c r = some ch) :
    Channel.workerStep E (o.view c) r = some (o.view ch) := by
  have hp' : (o.view c).wpc = .get := hp
  unfold Channel.workerStep at h ⊢
  simp only [hp, hp', Option.ite_none_right_eq_some] at h ⊢
  obtain ⟨hsent, h⟩ := h
  obtain rfl := Option.some.inj h
  exact ⟨hsent, rfl⟩

/-- A step of a call that does not touch its object. -/
theorem callStep_mapChan (f : κ → Object κ) {p p' : Proxy.State κ}
    (hq : (p.calls k).pc = .body →
      (p.calls k).chan.hpc = .release ∨ Proxy.released (p.calls k).chan.hpc = true)
    (h : Proxy.callStep E p k w = some p') :
    Proxy.callStep E (mapChan (fun k => (f k).view) p) k w =
      some (mapChan (fun k => (f k).view) p') := by
  by_cases hb : (p.calls k).pc = .body
  · have hb' : ((mapChan (fun k => (f k).view) p).calls k).pc = .body := hb
    by_cases hr : (p.calls k).chan.hpc = .release
    · have hr' : ((mapChan (fun k => (f k).view) p).calls k).chan.hpc = .release := hr
      rw [callStep_release hb hr, Option.some.injEq] at h
      rw [callStep_release hb' hr', ← h, ← mapChan_setCall]
      rfl
    · have hr' : ((mapChan (fun k => (f k).view) p).calls k).chan.hpc ≠ .release := hr
      rw [callStep_body hb hr] at h
      obtain ⟨ch, hch, rfl⟩ := Option.map_eq_some_iff.mp h
      have hview := handlerStep_view (o := f k) ((hq hb).resolve_left hr) hch
      rw [callStep_body hb' hr', ← mapChan_setCall]
      exact Option.map_eq_some_iff.mpr ⟨_, hview, rfl⟩
  unfold Proxy.callStep at h ⊢
  cases hp : (p.calls k).pc with
  | body => exact absurd hp hb
  | waitSegment v | waitRoom v =>
      simp only [mapChan, hp, Proxy.State.wait, Option.map_eq_some_iff] at h ⊢
      obtain ⟨r, hr, rfl⟩ := h
      refine ⟨r, hr, proxy_ext rfl rfl rfl rfl rfl fun j => ?_⟩
      rcases eq_or_ne j k with rfl | hj
      · simp
      · simp [Proxy.setCall_of_ne _ _ _ hj]
  | pop =>
      simp only [mapChan, hp] at h ⊢
      split at h <;> obtain rfl := Option.some.inj h
      · next hnil => simp [hnil]
      · next i q hcons =>
          simp only [hcons]
          refine congrArg some (proxy_ext rfl rfl rfl rfl rfl fun j => ?_)
          rcases eq_or_ne j k with rfl | hj
          · simp
          · simp [Proxy.setCall_of_ne _ _ _ hj]
  | _ =>
      simp only [mapChan, hp, Option.some.injEq] at h ⊢
      subst h
      refine proxy_ext rfl rfl rfl rfl rfl fun j => ?_
      rcases eq_or_ne j k with rfl | hj
      · simp [Object.view]
      · simp [Proxy.setCall_of_ne _ _ _ hj, Proxy.State.wakeAll]

omit [DecidableEq κ] in
theorem view_congr (hp : s'.proxy = s.proxy) (ho : ∀ k, s'.object E k = s.object E k) :
    s'.view E = s.view E := by
  unfold State.view
  rw [hp, funext ho]

omit [DecidableEq κ] in
theorem object_eq (E : κ → Channel.Env) {o : ℕ} (hm : s.mem k = some o) :
    s.object E k = s.objects o := by
  unfold State.object
  rw [hm]
  rfl

/-- A call changes that leaves its object alone. -/
theorem view_setCall (E : κ → Channel.Env) (s : State κ ω) (k : κ) (c : Proxy.Call) :
    State.view E { s with proxy := s.proxy.setCall k c } =
      (s.view E).setCall k { c with chan := (s.object E k).view c.chan } :=
  (mapChan_setCall (fun k => (s.object E k).view) s.proxy k c).symm

/-! ### Calls that do not touch their objects -/

theorem not_released_of_early {p : Channel.HPc} (h : p.early = true) :
    Proxy.released p = false := by
  cases p <;> first | rfl | cases h

theorem woken_same {c c' : Proxy.Call} (h : Proxy.Woken c c') :
    c'.fldes = c.fldes ∧ c'.chan = c.chan ∧ (c.pc = .body → c'.pc = .body) := by
  obtain rfl | rfl | rfl := h
  · exact ⟨rfl, rfl, id⟩
  · refine ⟨rfl, rfl, fun hp => ?_⟩
    rw [hp]
    rfl
  · refine ⟨rfl, rfl, fun hp => ?_⟩
    rw [hp]
    rfl

theorem quiet_of_released {p : Channel.HPc} (h : Proxy.released p = true) :
    p.broadcasts = false ∧ p ≠ .mqSend := by
  cases p <;> first | (cases h; done) | exact ⟨rfl, by simp⟩

/-- What a step that does not touch the object changes in its call. -/
theorem quiet_self {p p' : Proxy.State κ}
    (hq : (p.calls k).pc = .body →
      (p.calls k).chan.hpc = .release ∨ Proxy.released (p.calls k).chan.hpc = true)
    (h : Proxy.callStep E p k w = some p') :
    ((p.calls k).pc ≠ .pop → (p'.calls k).fldes = (p.calls k).fldes) ∧
      (p'.calls k).chan.wpc = (p.calls k).chan.wpc ∧
      (p'.calls k).chan.sent = (p.calls k).chan.sent ∧
      ((p'.calls k).chan.hpc = (p.calls k).chan.hpc ∨
        ((p.calls k).pc = .body ∨ (p.calls k).pc = .broadcastRead) ∧
          Proxy.released (p'.calls k).chan.hpc = true) := by
  by_cases hb : (p.calls k).pc = .body
  · by_cases hr : (p.calls k).chan.hpc = .release
    · rw [callStep_release hb hr] at h
      obtain rfl := Option.some.inj h
      simp
    · rw [callStep_body hb hr] at h
      obtain ⟨ch, hch, rfl⟩ := Option.map_eq_some_iff.mp h
      have hrel := (hq hb).resolve_left hr
      have hframe := Channel.frame_handlerStep hch
      obtain ⟨hquiet, hsend⟩ := quiet_of_released hrel
      have hwpc := hframe.wpc
      rw [if_neg (by rw [hquiet]; simp)] at hwpc
      have hsent : ch.sent = (p.calls k).chan.sent := by
        rw [Bool.eq_iff_iff, hframe.sent]
        exact or_iff_left hsend
      simp [hwpc, hsent, hb, (Proxy.released_handlerStep hch hr).trans hrel]
  unfold Proxy.callStep at h
  cases hp : (p.calls k).pc with
  | body => exact absurd hp hb
  | waitSegment v | waitRoom v =>
      simp only [hp, Proxy.State.wait, Option.map_eq_some_iff] at h
      obtain ⟨_, _, rfl⟩ := h
      simp
  | pop =>
      simp only [hp] at h
      split at h <;> obtain rfl := Option.some.inj h <;> simp
  | _ =>
      simp only [hp, Option.some.injEq] at h
      subst h
      simp [Proxy.released]

/-! ### The steps -/

variable [DecidableEq ω]

/-- What a step does. -/
inductive Move (E : κ → Channel.Env) (s : State κ ω) : State κ ω → Prop
  /-- Outside of the memory: in the pool, or when the object is gone. -/
  | quiet (k : κ) (w : ℤ) (p : Proxy.State κ)
      (hp : (s.proxy.calls k).pc = .body → s.stage k = .unlinked)
      (h : Proxy.callStep E s.proxy k w = some p) : Move E s { s with proxy := p }
  | unlinkOld (k : κ) (hp : (s.proxy.calls k).pc = .body) (hs : s.stage k = .unlinkOld) :
      Move E s { s with
        names := Function.update s.names (s.proxy.calls k).fldes none
        stage := Function.update s.stage k .create }
  | bound (k : κ) (o : ℕ) (hp : (s.proxy.calls k).pc = .body) (hs : s.stage k = .create)
      (hn : s.names (s.proxy.calls k).fldes = some o) :
      Move E s { s with proxy := { s.proxy with exited := true } }
  | create (k : κ) (hp : (s.proxy.calls k).pc = .body) (hs : s.stage k = .create) :
      Move E s { s with
        names := Function.update s.names (s.proxy.calls k).fldes (some s.next)
        objects := Function.update s.objects s.next (zeroFilled (E k))
        next := s.next + 1
        mem := Function.update s.mem k (some s.next)
        stage := Function.update s.stage k .mapped }
  | handle (k : κ) (o : ℕ) (w : ℤ) (s' : State κ ω) (hp : (s.proxy.calls k).pc = .body)
      (hs : s.stage k = .mapped) (hm : s.mem k = some o)
      (hr : (s.proxy.calls k).chan.hpc ≠ .release) (h : s.handle E k o w = some s') : Move E s s'
  | unmap (k : κ) (hp : (s.proxy.calls k).pc = .body) (hs : s.stage k = .mapped)
      (hr : (s.proxy.calls k).chan.hpc = .release) :
      Move E s { s with stage := Function.update s.stage k .unlink }
  | unlink (k : κ) (hp : (s.proxy.calls k).pc = .body) (hs : s.stage k = .unlink) :
      Move E s { s with
        names := Function.update s.names (s.proxy.calls k).fldes none
        stage := Function.update s.stage k .unlinked }
  | receive (i : ω) (n : ℕ) (m : Message κ) (hm : s.queue[n]? = some m) :
      Move E s { s with
        workers := Function.update s.workers i (some m)
        queue := s.queue.eraseIdx n }
  | get (i : ω) (m : Message κ) (r : ℤ) (ch : Channel.State) (hi : s.workers i = some m)
      (hp : (s.proxy.calls m.sender).chan.wpc = .get)
      (h : Channel.workerStep (E m.sender) (s.proxy.calls m.sender).chan r = some ch) :
      Move E s { s with
        proxy := s.proxy.setCall m.sender { s.proxy.calls m.sender with chan := ch } }
  | retry : Move E s s
  | openMessage (i : ω) (m : Message κ) (o : ℕ) (hi : s.workers i = some m)
      (hp : (s.proxy.calls m.sender).chan.wpc ≠ .get) (hw : s.wmem m.sender = none)
      (hn : s.names m.fldes = some o) :
      Move E s { s with wmem := Function.update s.wmem m.sender (some o) }
  | serve (k : κ) (o : ℕ) (r : ℤ) (s' : State κ ω) (hw : s.wmem k = some o)
      (h : s.serve E k o r = some s') : Move E s s'
  | finish (i : ω) : Move E s { s with workers := Function.update s.workers i none }
  | wakeCall (k : κ) :
      Move E s { s with proxy := s.proxy.setCall k { s.proxy.calls k with
        pc := (s.proxy.calls k).pc.wakeRead.wakeWrite
        chan := { (s.proxy.calls k).chan with hpc := (s.proxy.calls k).chan.hpc.wake } } }
  | wakeWorker (k : κ) :
      Move E s { s with proxy := s.proxy.setCall k { s.proxy.calls k with
        chan := { (s.proxy.calls k).chan with wpc := (s.proxy.calls k).chan.wpc.wake } } }

theorem move_callStep (h : callStep E s k w = some s') : Move E s s' := by
  unfold callStep at h
  dsimp only at h
  by_cases hb : (s.proxy.calls k).pc = .body ∧ s.stage k ≠ .unlinked
  · rw [if_pos hb] at h
    obtain ⟨hp, _⟩ := hb
    cases hs : s.stage k with
    | unlinkOld =>
        simp only [hs] at h
        obtain rfl := Option.some.inj h
        exact .unlinkOld k hp hs
    | create =>
        simp only [hs] at h
        split at h
        · next o hn =>
            obtain rfl := Option.some.inj h
            exact .bound k o hp hs hn
        · obtain rfl := Option.some.inj h
          exact .create k hp hs
    | mapped =>
        simp only [hs] at h
        split at h
        · next hr =>
            obtain rfl := Option.some.inj h
            exact .unmap k hp hs hr
        · next hr =>
            obtain ⟨o, hm, h⟩ := Option.bind_eq_some_iff.mp h
            exact .handle k o w s' hp hs hm hr h
    | unlink =>
        simp only [hs] at h
        obtain rfl := Option.some.inj h
        exact .unlink k hp hs
    | unlinked =>
        simp only [hs] at h
        cases h
  · rw [if_neg hb] at h
    obtain ⟨p, hstep, rfl⟩ := Option.map_eq_some_iff.mp h
    refine .quiet k w p (fun hp => ?_) hstep
    by_contra hs
    exact hb ⟨hp, hs⟩

theorem move_workerStep {i : ω} {r : ℤ} (h : workerStep E s i r = some s') : Move E s s' := by
  unfold workerStep at h
  obtain ⟨m, hi, h⟩ := Option.bind_eq_some_iff.mp h
  dsimp only at h
  split at h
  · next hp =>
      obtain ⟨ch, hstep, rfl⟩ := Option.map_eq_some_iff.mp h
      exact .get i m r ch hi hp hstep
  · next hp =>
      split at h
      · next hw =>
          split at h
          · obtain rfl := Option.some.inj h
            exact .retry
          · next o hn =>
              obtain rfl := Option.some.inj h
              exact .openMessage i m o hi hp hw hn
      · next o hw =>
          split at h
          · obtain rfl := Option.some.inj h
            exact .finish i
          · exact .serve m.sender o r s' hw h

theorem move_step {a : Act κ ω} (h : step E s a = some s') :
    s.proxy.exited = false ∧ Move E s s' := by
  unfold step at h
  split at h
  · cases h
  · next halive =>
      refine ⟨Bool.eq_false_iff.mpr halive, ?_⟩
      cases a with
      | call k w => exact move_callStep h
      | receive i n =>
          dsimp only at h
          split at h
          · next m _ hm =>
              obtain rfl := Option.some.inj h
              exact .receive i n m hm
          · cases h
      | worker i r => exact move_workerStep h
      | spuriousCall k =>
          obtain rfl := Option.some.inj h
          exact .wakeCall k
      | spuriousWorker k =>
          obtain rfl := Option.some.inj h
          exact .wakeWorker k

end OsProjects.SharedMemory
