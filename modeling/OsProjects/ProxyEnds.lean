import OsProjects.ProxyRuns

/-! # The proxy answers everything

The whole proxy with its workers, in runs in which nothing fails and no decisive wakeup of an
exchange is missed; threads may wake without a signal.  It is granted that every message reaches its
worker intact.

* `State.left`, `left_turn` — the steps that calls, workers and messages have left.
* `Posted` — a message that has been sent is in the queue, or with a worker, until it is served.
* `over_of_still` — where nobody can go on, every call has returned, the queue is empty and the
  workers are idle: the holder of `fldes_mutex` could go on, so could a side of every exchange that
  a worker serves, and with all ids back a call that sleeps for one has a broadcast coming.
* `proxy_ends` — how long such runs are, where they can stop, and that they can be continued until
  every call has been answered. -/

namespace OsProjects.Channel

variable {E : Env} {s s' : State}

/-- At both ends of a call the handler has nothing to send and nobody to wake. -/
theorem clear_of_outside {w : ℤ} (hp : s.hpc = .createLength ∨ s.hpc = .release) :
    Clear s (.handler w) := by
  obtain hp | hp := hp
  · exact ⟨by simp [Faultless, hp], by simp [Heard, hp]⟩
  · exact ⟨by simp [Faultless, hp], by simp [Heard, hp]⟩

theorem clear_of_finished {r : ℤ} (hp : s.wpc = .finished) : Clear s (.worker r) :=
  ⟨by simp [Faultless, hp], by simp [Heard, hp]⟩

theorem finished_step {a : Act} (h : step E s a = some s') (hp : s.wpc = .finished) :
    s'.wpc = .finished := by
  cases a with
  | handler w =>
      have hwpc := (frame_handlerStep h).wpc
      rw [hp] at hwpc
      split at hwpc <;> exact hwpc
  | worker r => simp [step, workerStep, hp] at h
  | spuriousHandler =>
      obtain rfl := Option.some.inj h
      exact hp
  | spuriousWorker =>
      obtain rfl := Option.some.inj h
      simp [hp, WPc.wake]

end OsProjects.Channel

namespace OsProjects.SharedMemory

open Monitor Transition

variable {κ ω : Type*} [DecidableEq κ]
variable {segments : ℕ} {E : κ → Channel.Env} {s s' : State κ ω} {k : κ} {w r : ℤ}

/-! ### The steps that are left -/

/-- The steps of a call in `create_shm_channel` and `destroy_shm_seg`. -/
def Stage.left : Stage → ℕ
  | unlinkOld => 4
  | create => 3
  | mapped => 2
  | unlink => 1
  | unlinked => 0

/-- The steps of worker `i` for its message, apart from the exchange. -/
def State.task (s : State κ ω) (i : ω) : ℕ :=
  match s.workers i with
  | none => 0
  | some m => if s.wmem m.sender = none then 2 else 1

/-- The steps for a message that has not been sent yet. -/
def State.unsent (s : State κ ω) (k : κ) : ℕ := bif s.sent k then 0 else 3

/-- The steps that calls, workers and messages have left. -/
def State.left [Fintype κ] [Fintype ω] (E : κ → Channel.Env) (s : State κ ω) : ℕ :=
  (s.view E).left E + ∑ k, (s.stage k).left + ∑ k, s.unsent k + 3 * s.queue.length +
    ∑ i, s.task i

/-- A spurious wakeup takes a step and makes a thread test again. -/
def Act.credit : Act κ ω → ℕ
  | call _ _ | receive _ _ | worker _ _ => 0
  | spuriousCall _ | spuriousWorker _ => 4

theorem Stage.left_next {st : Stage} (h : st ≠ .unlinked) : st.next.left + 1 = st.left := by
  cases st with
  | unlinked => exact absurd rfl h
  | _ => rfl

omit [DecidableEq κ] in
theorem credit_below {a : Act κ ω} {b : Proxy.Act κ} (h : a.below s = some b) :
    b.credit = a.credit := by
  cases a with
  | receive i n => cases h
  | worker i r =>
      obtain ⟨m, _, rfl⟩ := Option.map_eq_some_iff.mp h
      rfl
  | _ =>
      obtain rfl := Option.some.inj h
      rfl

section work
variable [Fintype κ]

theorem Posts.left_le (h : Posts s s') :
    ∑ k, s'.unsent k + 3 * s'.queue.length ≤ ∑ k, s.unsent k + 3 * s.queue.length := by
  cases h with
  | none hsent hqueue =>
      have hsum : ∑ k, s'.unsent k = ∑ k, s.unsent k :=
        Finset.sum_congr rfl fun k _ => by rw [State.unsent, State.unsent, hsent k]
      rw [hsum, hqueue]
  | one m hbefore hafter hothers hqueue =>
      have hsum := sum_step (f := s'.unsent) (g := s.unsent) m.sender fun k hk => by
        rw [State.unsent, State.unsent, hothers k hk]
      have hb : s.unsent m.sender = 3 := by rw [State.unsent, hbefore]; rfl
      have ha : s'.unsent m.sender = 0 := by rw [State.unsent, hafter]; rfl
      rw [hqueue, List.length_append, List.length_singleton]
      omega

variable [Fintype ω] [DecidableEq ω]

section task
omit [DecidableEq κ] [Fintype κ] [Fintype ω] [DecidableEq ω]
variable {i : ω} {m : Message κ} {o : ℕ}

/-- The tasks of the workers depend on their messages and on what they have opened. -/
theorem task_congr (hworkers : s'.workers i = s.workers i)
    (hwmem : ∀ m, s.workers i = some m → s'.wmem m.sender = s.wmem m.sender) :
    s'.task i = s.task i := by
  unfold State.task
  rw [hworkers]
  cases hi : s.workers i with
  | none => rfl
  | some m =>
      dsimp only
      rw [hwmem m hi]

theorem task_of_none (hi : s.workers i = none) : s.task i = 0 := by rw [State.task, hi]

theorem task_of_unopened (hi : s.workers i = some m) (hw : s.wmem m.sender = none) :
    s.task i = 2 := by
  rw [State.task, hi]
  exact if_pos hw

theorem task_of_opened (hi : s.workers i = some m) (hw : s.wmem m.sender = some o) :
    s.task i = 1 := by
  rw [State.task, hi]
  simp [hw]

theorem task_le (s : State κ ω) (i : ω) : s.task i ≤ 2 := by
  cases hi : s.workers i with
  | none => exact (task_of_none hi).trans_le (Nat.zero_le 2)
  | some m =>
      cases hw : s.wmem m.sender with
      | none => exact Nat.le_of_eq (task_of_unopened hi hw)
      | some o => exact (task_of_opened hi hw).trans_le (Nat.le_succ 1)

theorem task_pos (hi : s.workers i = some m) : 1 ≤ s.task i := by
  cases hw : s.wmem m.sender with
  | none => exact (Nat.le_succ 1).trans_eq (task_of_unopened hi hw).symm
  | some o => exact Nat.le_of_eq (task_of_opened hi hw).symm

theorem task_open_le [DecidableEq κ] (s : State κ ω) (k : κ) (o : ℕ) (i : ω) :
    State.task { s with wmem := Function.update s.wmem k (some o) } i ≤ s.task i := by
  cases hi : s.workers i with
  | none => exact Nat.le_of_eq (task_congr rfl fun m hm => by rw [hi] at hm; cases hm)
  | some m =>
      by_cases hk : m.sender = k
      · subst hk
        have hopened : State.task { s with
            wmem := Function.update s.wmem m.sender (some o) } i = 1 :=
          task_of_opened hi (Function.update_self m.sender _ _)
        exact hopened.trans_le (task_pos hi)
      · refine Nat.le_of_eq (task_congr rfl fun m' hm' => ?_)
        rw [hi] at hm'
        obtain rfl := Option.some.inj hm'
        exact Function.update_of_ne hk _ _

end task

omit [DecidableEq κ] in
theorem left_of_task {i : ω} {a b : ℕ} (hproxy : s'.proxy = s.proxy)
    (hview : s'.view E = s.view E) (hstage : s'.stage = s.stage)
    (hothers : ∀ j ≠ i, s'.task j ≤ s.task j) (hnew : s'.task i ≤ a) (hold : b ≤ s.task i)
    (hless : 3 * s'.queue.length + a + 1 ≤ 3 * s.queue.length + b) :
    s'.left E + 1 ≤ s.left E := by
  have hsum := sum_step_le (f := s'.task) (g := s.task) i 0 hothers
  have hunsent : s'.unsent = s.unsent := funext fun j => by
    rw [State.unsent, State.unsent, State.sent, State.sent, hproxy]
  unfold State.left
  rw [hview, hstage, hunsent]
  omega

/-- **Every turn is paid for.** -/
theorem left_turn {a : Act κ ω} (hN : Names s) (hR : Proxy.Reachable segments E (s.view E))
    (hsmall : ∀ k, (E k).contents.length < 2 ^ 31)
    (hI : ∀ k, Channel.Inv (E k) (s.exchange E k))
    (hF : ∀ k, Channel.Filled (E k) (s.exchange E k)) (ha : Meets E Channel.Faultless s a)
    (h : Turn E s a s') : s'.left E + 1 ≤ s.left E + a.credit := by
  cases h with
  | stage k w s' hp hs hproxy hview hstage hqueue hworkers hwmem =>
      have hsum := sum_step (f := fun j => (s'.stage j).left) (g := fun j => (s.stage j).left) k
        fun j hj => by rw [hstage, Function.update_of_ne hj]
      have hnext := Stage.left_next hs
      have hunsent : s'.unsent = s.unsent := funext fun j => by
        rw [State.unsent, State.unsent, State.sent, State.sent, hproxy]
      have htask : s'.task = s.task := funext fun i =>
        task_congr (by rw [hworkers]) fun m _ => by rw [hwmem]
      simp only [hstage, Function.update_self] at hsum
      unfold State.left
      rw [hview, hunsent, htask, hqueue, hstage]
      omega
  | receive i n m hi hm =>
      have hlt : n < s.queue.length := (List.getElem?_eq_some_iff.mp hm).1
      have hlen := List.length_eraseIdx_of_lt hlt
      refine left_of_task (i := i) rfl rfl rfl (fun j hj => ?_) (task_le _ i) (Nat.zero_le _) ?_
      · exact Nat.le_of_eq (task_congr (Function.update_of_ne hj _ _) fun _ _ => rfl)
      · dsimp only
        omega
  | retry i r m hi hw hn =>
      obtain ⟨hne, heq⟩ := names_message hN hR (.inr ⟨i, hi⟩) hw
      rw [hn] at heq
      exact absurd heq.symm hne
  | openMessage i r m o hi hw =>
      have hopened : State.task { s with wmem := Function.update s.wmem m.sender (some o) } i = 1 :=
        task_of_opened hi (Function.update_self m.sender _ _)
      exact left_of_task rfl rfl rfl (fun j _ => task_open_le s m.sender o j)
        (Nat.le_of_eq hopened) (Nat.le_of_eq (task_of_unopened hi hw).symm) (Nat.le_refl _)
  | finish i r m hi hp =>
      have hfree : State.task { s with workers := Function.update s.workers i none } i = 0 :=
        task_of_none (Function.update_self i none s.workers)
      refine left_of_task rfl rfl rfl (fun j hj => ?_) (Nat.le_of_eq hfree) (task_pos hi)
        (Nat.le_refl _)
      exact Nat.le_of_eq (task_congr (Function.update_of_ne hj _ _) fun _ _ => rfl)
  | proxy a b s' hb h hstage hworkers hwmem hposts =>
      have hleft := Proxy.left_step hR.counter hR.callOk hsmall hI hF (ha b hb) h
      have hmessages := hposts.left_le
      have htask : s'.task = s.task := funext fun i =>
        task_congr (by rw [hworkers]) fun m _ => by rw [hwmem]
      rw [credit_below hb] at hleft
      unfold State.left
      rw [htask, hstage]
      omega

end work

/-! ### Messages on their way -/

/-- A message that has been sent is in the queue or with a worker, or its exchange is over. -/
def Posted (s : State κ ω) : Prop :=
  ∀ k, s.sent k = true → (∃ m ∈ s.queue, m.sender = k) ∨
    (∃ i m, s.workers i = some m ∧ m.sender = k) ∨ (s.proxy.calls k).chan.wpc = .finished

section posted

/-- Workers that have finished stay so in every step of the proxy. -/
theorem finished_proxy {b : Proxy.Act κ} (hR : Proxy.Reachable segments E (s.view E))
    (h : Proxy.step E (s.view E) b = some (s'.view E))
    (hp : (s.proxy.calls k).chan.wpc = .finished) : (s'.proxy.calls k).chan.wpc = .finished := by
  have hp' : ((s.view E).calls k).chan.wpc = .finished := hp
  have hfinished : ((s'.view E).calls k).chan.wpc = .finished := by
    obtain hchan | ⟨_, hchan⟩ := Proxy.chan_step hR.callOk h k
    · rw [hchan]
      exact hp'
    · exact Channel.finished_step hchan hp'
  exact hfinished

variable [DecidableEq ω]

theorem Posted.turn {a : Act κ ω} (hR : Proxy.Reachable segments E (s.view E)) (hP : Posted s)
    (h : Turn E s a s') : Posted s' := by
  intro k hk
  cases h with
  | stage k' w s' hp hs hproxy hview hstage hqueue hworkers hwmem =>
      unfold State.sent at hk
      rw [hproxy] at hk
      rw [hqueue, hworkers, hproxy]
      exact hP k hk
  | receive i n m hi hm =>
      obtain ⟨m', hm', rfl⟩ | ⟨j, m', hj, rfl⟩ | hw := hP k hk
      · obtain ⟨n', hn'⟩ := List.mem_iff_getElem?.mp hm'
        by_cases heq : n' = n
        · subst heq
          rw [hm] at hn'
          obtain rfl := Option.some.inj hn'
          exact .inr (.inl ⟨i, m, Function.update_self i _ _, rfl⟩)
        · exact .inl ⟨m', List.mem_eraseIdx_iff_getElem?.mpr ⟨n', heq, hn'⟩, rfl⟩
      · have hji : j ≠ i := by
          rintro rfl
          rw [hi] at hj
          cases hj
        exact .inr (.inl ⟨j, m', (Function.update_of_ne hji _ _).trans hj, rfl⟩)
      · exact .inr (.inr hw)
  | retry i r m hi hw hn => exact hP k hk
  | openMessage i r m o hi hw => exact hP k hk
  | finish i r m hi hp =>
      obtain hq | ⟨j, m', hj, rfl⟩ | hw := hP k hk
      · exact .inl hq
      · by_cases hji : j = i
        · subst hji
          rw [hi] at hj
          obtain rfl := Option.some.inj hj
          exact .inr (.inr hp)
        · exact .inr (.inl ⟨j, m', (Function.update_of_ne hji _ _).trans hj, rfl⟩)
      · exact .inr (.inr hw)
  | proxy a b s' hb h hstage hworkers hwmem hposts =>
      rw [hworkers]
      have hbefore : s.sent k = true → (∃ m ∈ s.queue, m.sender = k) ∨
          (∃ i m, s.workers i = some m ∧ m.sender = k) ∨
            (s'.proxy.calls k).chan.wpc = .finished :=
        fun hk => (hP k hk).imp_right (Or.imp_right (finished_proxy hR h))
      cases hposts with
      | none hsent hqueue =>
          rw [hqueue]
          exact hbefore ((hsent k).symm.trans hk)
      | one m _ _ hothers hqueue =>
          rw [hqueue]
          by_cases hkm : k = m.sender
          · exact .inl ⟨m, List.mem_append_right _ (List.mem_singleton_self m), hkm.symm⟩
          · refine (hbefore ((hothers k hkm).symm.trans hk)).imp_left fun ⟨m', hm', heq⟩ => ?_
            exact ⟨m', List.mem_append_left _ hm', heq⟩

theorem Reachable.posted (h : Reachable segments E s) : Posted s := by
  induction h with
  | refl =>
      intro k hk
      cases hk
  | step hr _ hs ih =>
      obtain ⟨hN, hR⟩ := Reachable.names hr
      exact ih.turn hR (turn_step hN hR hs)

end posted

/-! ### Where the proxy stops -/

/-- Every call has returned, no message is left, and the workers are idle. -/
structure Over (s : State κ ω) : Prop where
  returned : ∀ k, (s.proxy.calls k).pc = .body ∧ (s.proxy.calls k).chan.hpc = .returned
  queue : s.queue = []
  workers : ∀ i, s.workers i = none

/-- What is known of the states of a clear run. -/
structure Sound (segments : ℕ) (E : κ → Channel.Env) (s : State κ ω) : Prop where
  names : Names s
  proxy : Proxy.Reachable segments E (s.view E)
  posted : Posted s
  exchange : ∀ k, Channel.Sound (E k) (s.exchange E k)

section still

/-- A call whose handler can step in the exchange can step. -/
theorem callStep_isSome (hN : Names s) (hR : Proxy.Reachable segments E (s.view E))
    (hp : (s.proxy.calls k).pc = .body)
    (hsome : (Channel.handlerStep (E k) (s.exchange E k) w).isSome = true) :
    (callStep E s k w).isSome = true := by
  have hstage := hN.stage k
  unfold callStep
  dsimp only
  cases hs : s.stage k with
  | unlinkOld | unlink =>
      rw [if_pos ⟨hp, by simp⟩]
      rfl
  | create =>
      rw [if_pos ⟨hp, by simp⟩]
      simp only [names_free hN hR hp hs]
      rfl
  | mapped =>
      rw [hs] at hstage
      rw [if_pos ⟨hp, by simp⟩]
      obtain ⟨o, hm⟩ := Option.ne_none_iff_exists'.mp hstage.1
      have hview : s.exchange E k = (s.objects o).view (s.proxy.calls k).chan := by
        rw [← object_eq E hm]
        rfl
      dsimp only
      split
      · rfl
      · rw [hm, Option.bind_some, State.handle, Option.isSome_map, ← hview]
        exact hsome
  | unlinked =>
      rw [hs] at hstage
      rw [if_neg (by simp), Option.isSome_map]
      by_cases hr : (s.proxy.calls k).chan.hpc = .release
      · rw [callStep_release hp hr]
        rfl
      · rw [callStep_body hp hr, Option.isSome_map]
        have hrel := hstage.2.resolve_left hr
        cases hpc : (s.proxy.calls k).chan.hpc with
        | reply => simp [Channel.handlerStep, hpc]
        | returned =>
            have hpc' : (s.exchange E k).hpc = .returned := hpc
            simp [Channel.handlerStep, hpc'] at hsome
        | _ => simp [hpc, Proxy.released] at hrel

variable [DecidableEq ω]

/-- A worker that can step in the exchange, or has finished there, can step. -/
theorem workerStep_isSome {i : ω} {m : Message κ} (hN : Names s) (hi : s.workers i = some m)
    (hsome : (Channel.workerStep (E m.sender) (s.exchange E m.sender) r).isSome = true ∨
      (s.exchange E m.sender).wpc = .finished) : (workerStep E s i r).isSome = true := by
  unfold workerStep
  rw [hi, Option.bind_some]
  dsimp only
  split
  · next hp =>
      -- the message has been sent
      obtain ⟨_, hsent⟩ := hN.message m (.inr ⟨i, hi⟩)
      rw [Option.isSome_map]
      simp [Channel.workerStep, hp, hsent]
  · split
    · split <;> rfl
    · next o hw =>
        split
        · rfl
        · next hp =>
            have hview : s.exchange E m.sender =
                (s.objects o).view (s.proxy.calls m.sender).chan := by
              rw [← object_eq E (hN.opened m.sender o hw)]
              rfl
            have hfinished : (s.exchange E m.sender).wpc ≠ .finished := hp
            rw [State.serve, Option.isSome_map, ← hview]
            exact hsome.resolve_right hfinished

omit [DecidableEq ω] in
/-- Outside of the exchange the handler is at one of its ends. -/
theorem Sound.outside (hS : Sound segments E s) (hp : (s.proxy.calls k).pc ≠ .body) :
    (s.exchange E k).hpc = .createLength ∨ (s.exchange E k).hpc = .release := by
  have hO := hS.proxy.callOk k
  have hp' : ((s.view E).calls k).pc ≠ .body := hp
  unfold Proxy.Call.Ok at hO
  unfold State.exchange
  cases hc : ((s.view E).calls k).pc with
  | body => exact absurd hc hp'
  | idle | waitSegment _ | pop | decrement | unlockPop | broadcastWrite =>
      simp only [hc] at hO
      exact .inl hO.1
  | _ =>
      simp only [hc] at hO
      exact .inr hO.1

omit [DecidableEq ω] in
/-- Calls that have returned, and calls that wait for an id, have none. -/
theorem Sound.ids_back (hS : Sound segments E s)
    (hpc : ∀ k, ((s.proxy.calls k).pc = .body ∧ (s.proxy.calls k).chan.hpc = .returned) ∨
      (s.proxy.calls k).pc = .waitSegment .asleep) :
    s.proxy.fldesQueue.Perm (Proxy.segmentIds segments) := by
  refine hS.proxy.pool.perm (Proxy.segmentIds_nodup segments) fun k => ?_
  obtain ⟨hp, hr⟩ | hp := hpc k
  · have hp' : ((s.view E).calls k).pc = .body := hp
    have hr' : ((s.view E).calls k).chan.hpc = .returned := hr
    simp [Proxy.State.pool, Proxy.Call.held, hp', hr', Proxy.released, Proxy.CallPc.owns]
  · have hp' : ((s.view E).calls k).pc = .waitSegment .asleep := hp
    simp [Proxy.State.pool, Proxy.Call.held, hp', Proxy.CallPc.owns]

variable (hS : Sound segments E s) (hstill : Stuck (step E) (Meets E Channel.Calm) s)
include hS hstill

theorem Sound.call_still (hclear : Channel.Clear (s.exchange E k) (.handler w)) :
    callStep E s k w = none := by
  have halive : s.proxy.exited = false := hS.proxy.roomy.alive
  have hnone := hstill (.call k w) fun b hb => by
    obtain rfl := Option.some.inj hb
    exact hclear
  unfold step at hnone
  rwa [if_neg (by simp [halive])] at hnone

theorem Sound.worker_still {i : ω} {m : Message κ} (hi : s.workers i = some m)
    (hclear : Channel.Clear (s.exchange E m.sender) (.worker r)) : workerStep E s i r = none := by
  have halive : s.proxy.exited = false := hS.proxy.roomy.alive
  have hnone := hstill (.worker i r) fun b hb => by
    rw [Act.below, hi] at hb
    obtain rfl := Option.some.inj hb
    exact hclear
  unfold step at hnone
  rwa [if_neg (by simp [halive])] at hnone

theorem Sound.queue_still {i : ω} (hi : s.workers i = none) : s.queue = [] := by
  have halive : s.proxy.exited = false := hS.proxy.roomy.alive
  have hnone := hstill (.receive i 0) fun b hb => by cases hb
  unfold step at hnone
  rw [if_neg (by simp [halive])] at hnone
  cases hq : s.queue with
  | nil => rfl
  | cons m q => simp [hi, hq] at hnone

/-- Calls outside of their exchanges sleep for an id. -/
theorem Sound.asleep_of_still : s.proxy.fldesMutex = none ∧
    ∀ k, (s.proxy.calls k).pc = .body ∨ (s.proxy.calls k).pc = .waitSegment .asleep := by
  have hC : Proxy.Counter s.proxy :=
    ⟨hS.proxy.counter.lock, hS.proxy.counter.free, hS.proxy.counter.crit⟩
  have hnone : ∀ k w, (s.proxy.calls k).pc ≠ .body → Proxy.callStep E s.proxy k w = none := by
    intro k w hp
    have hcall := hS.call_still hstill (w := w) (Channel.clear_of_outside (hS.outside hp))
    unfold callStep at hcall
    rw [if_neg fun hb => hp hb.1] at hcall
    exact Option.map_eq_none_iff.mp hcall
  have hfree := Proxy.free_of_still hC hnone
  refine ⟨hfree, fun k => ?_⟩
  by_contra hno
  obtain ⟨hbody, hasleep⟩ := not_or.mp hno
  have hroom : (s.proxy.calls k).pc ≠ .waitRoom .asleep :=
    fun hp => hS.proxy.roomy.awake k _ hp rfl
  have hsome := Proxy.callStep_isSome E 0 hbody hasleep hroom (.inl hfree)
  rw [hnone k 0 hbody] at hsome
  cases hsome

variable (hmode : ∀ k, (E k).mode = .pthread) (hsmall : ∀ k, (E k).contents.length < 2 ^ 31)
  (hcap : ∀ k, 1 ≤ (E k).segmentSize - (E k).sizeofShmData - 1) (hfile : ∀ k, (E k).file ≠ some [])
include hmode hsmall hcap hfile

/-- A call is over if its worker cannot go on either. -/
theorem Sound.ended (hp : (s.proxy.calls k).pc = .body)
    (hworker : ∀ r, Channel.Clear (s.exchange E k) (.worker r) →
      Channel.workerStep (E k) (s.exchange E k) r = none) :
    (s.exchange E k).hpc = .returned ∧ (s.exchange E k).wpc = .finished := by
  refine (hS.exchange k).ended_of_still (hmode k) (hsmall k) (hcap k) (hfile k) fun a ha => ?_
  cases a with
  | handler w =>
      by_contra hne
      have hsome := callStep_isSome hS.names hS.proxy hp (Option.isSome_iff_ne_none.mpr hne)
      rw [hS.call_still hstill ha] at hsome
      cases hsome
  | worker r => exact hworker r ha
  | spuriousHandler | spuriousWorker => exact ha.elim

/-- A worker with a message could go on, or its call could. -/
theorem Sound.idle_of_still (i : ω) : s.workers i = none := by
  by_contra hne
  obtain ⟨m, hi⟩ := Option.ne_none_iff_exists'.mp hne
  have hp : (s.proxy.calls m.sender).pc = .body := by
    refine ((hS.asleep_of_still hstill).2 m.sender).resolve_right fun hasleep => ?_
    have hO := hS.proxy.callOk m.sender
    have hpc : ((s.view E).calls m.sender).pc = .waitSegment .asleep := hasleep
    unfold Proxy.Call.Ok at hO
    simp only [hpc] at hO
    have hsent := (hS.names.message m (.inr ⟨i, hi⟩)).2
    rw [not_sent hS.proxy (.inl hO.1)] at hsent
    cases hsent
  obtain ⟨_, hfinished⟩ := hS.ended hstill hmode hsmall hcap hfile hp fun r hr => by
    by_contra hstep
    have hsome := workerStep_isSome hS.names hi (.inl (Option.isSome_iff_ne_none.mpr hstep))
    rw [hS.worker_still hstill hi hr] at hsome
    cases hsome
  have hsome := workerStep_isSome (r := 0) hS.names hi (.inr hfinished)
  rw [hS.worker_still hstill hi (Channel.clear_of_finished hfinished)] at hsome
  cases hsome

variable [Nonempty ω]

/-- A call in its exchange has returned: its message has been served, or it has sent none. -/
theorem Sound.returned_of_still (hp : (s.proxy.calls k).pc = .body) :
    (s.exchange E k).hpc = .returned := by
  have hidle := hS.idle_of_still hstill hmode hsmall hcap hfile
  have hqueue := hS.queue_still hstill (hidle (Classical.arbitrary ω))
  refine (hS.ended hstill hmode hsmall hcap hfile hp fun r _ => ?_).1
  cases hsent : (s.exchange E k).sent with
  | false =>
      have hW := (hS.exchange k).inv.worker
      rw [hsent] at hW
      simp [Channel.workerStep, hW.get_of_unsent, hsent]
  | true =>
      have hwpc : (s.exchange E k).wpc = .finished := by
        obtain ⟨m, hm, _⟩ | ⟨i, m, hi, _⟩ | hw := hS.posted k hsent
        · rw [hqueue] at hm
          cases hm
        · rw [hidle i] at hi
          cases hi
        · exact hw
      simp [Channel.workerStep, hwpc]

/-- **No deadlock.** -/
theorem Sound.over_of_still (hsegments : 1 ≤ segments) : Over s := by
  obtain ⟨hfree, hpc⟩ := hS.asleep_of_still hstill
  have hidle := hS.idle_of_still hstill hmode hsmall hcap hfile
  have hreturned : ∀ k, (s.proxy.calls k).pc = .body → (s.proxy.calls k).chan.hpc = .returned :=
    fun k hp => hS.returned_of_still hstill hmode hsmall hcap hfile hp
  refine ⟨fun k => ?_, hS.queue_still hstill (hidle (Classical.arbitrary ω)), hidle⟩
  refine (hpc k).elim (fun hp => ⟨hp, hreturned k hp⟩) fun hasleep => ?_
  -- no broadcast is coming, so the sleeper has seen the last id go
  have hsize : s.proxy.fldesQueueSize = 0 := by
    refine (hS.proxy.due.asleep k hasleep).resolve_right ?_
    rintro ⟨j, hj⟩
    have htells : (s.proxy.calls j).pc.tells = true := hj
    obtain hp | hp := hpc j <;> rw [hp] at htells <;> cases htells
  -- but all ids are back
  have hperm := hS.ids_back fun j => (hpc j).imp_left fun hp => ⟨hp, hreturned j hp⟩
  have hback := hperm.length_eq
  have hcount : s.proxy.fldesQueueSize = s.proxy.fldesQueue.length := hS.proxy.counter.free hfree
  rw [Proxy.length_segmentIds] at hback
  omega

end still

/-! ### Runs -/

section runs
variable [DecidableEq ω]

theorem Reachable.sound (hsmall : ∀ k, (E k).contents.length < 2 ^ 31)
    (hcap : ∀ k, 1 ≤ (E k).segmentSize - (E k).sizeofShmData - 1)
    (h : Reach (step E) (Meets E Channel.Clear) (init segments E) s) : Sound segments E s := by
  have hany : Reachable segments E s := h.imp fun _ _ _ _ => trivial
  obtain ⟨hN, hR⟩ := hany.names
  exact ⟨hN, hR, hany.posted, fun k => (Reachable.exchange h k).sound (hsmall k) (hcap k)⟩

variable [Fintype κ] [Fintype ω]

theorem pays_left (hsmall : ∀ k, (E k).contents.length < 2 ^ 31)
    (hcap : ∀ k, 1 ≤ (E k).segmentSize - (E k).sizeofShmData - 1) :
    Pays (step E) (Meets E Channel.Clear) (init segments E : State κ ω) (State.left E) (fun _ => 0)
      Act.credit := by
  intro s a s' hr ha hs
  have hS := Reachable.sound hsmall hcap hr
  exact left_turn hS.names hS.proxy hsmall (fun k => (hS.exchange k).inv)
    (fun k => (hS.exchange k).filled) (fun b hb => (ha b hb).1) (turn_step hS.names hS.proxy hs)

omit [DecidableEq κ] [DecidableEq ω] in
theorem left_init (segments : ℕ) (hsmall : ∀ k, (E k).contents.length < 2 ^ 31) :
    (init segments E : State κ ω).left E ≤
      ∑ k, (24 * (E k).contents.length + 6 * Fintype.card κ + 61) := by
  have hcalls : (State.view E (init segments E : State κ ω)).left E ≤
      ∑ k, (24 * (E k).contents.length + 6 * Fintype.card κ + 54) := by
    refine Finset.sum_le_sum fun k _ => ?_
    have hinit := Channel.left_init (E k)
    have hlen := Channel.Env.fileLen_le (hsmall k)
    show 6 * Fintype.card κ + 16 + (Channel.init (E k)).left (E k) ≤ _
    omega
  have hstage : ∑ k, ((init segments E : State κ ω).stage k).left = ∑ _ : κ, 4 := rfl
  have hunsent : ∑ k, (init segments E : State κ ω).unsent k = ∑ _ : κ, 3 := rfl
  have htask : ∑ i, (init segments E : State κ ω).task i = 0 :=
    Finset.sum_eq_zero fun _ _ => rfl
  have hqueue : (init segments E : State κ ω).queue.length = 0 := rfl
  have hall : ∑ k, (24 * (E k).contents.length + 6 * Fintype.card κ + 61) =
      ∑ k, (24 * (E k).contents.length + 6 * Fintype.card κ + 54) + ∑ _ : κ, 4 + ∑ _ : κ, 3 := by
    rw [← Finset.sum_add_distrib, ← Finset.sum_add_distrib]
  unfold State.left
  omega

omit [DecidableEq κ] [Fintype κ] [Fintype ω] [DecidableEq ω] in
theorem Over.unlinked (hN : Names s) (hover : Over s) (k : κ) : s.stage k = .unlinked := by
  by_contra hs
  have hrel := (hN.stage k).inside hs
  rw [(hover.returned k).2] at hrel
  cases hrel

omit [DecidableEq κ] [Fintype κ] [Fintype ω] [DecidableEq ω] in
theorem Over.names_none (hN : Names s) (hover : Over s) (n : List Byte) : s.names n = none := by
  cases hn : s.names n with
  | none => rfl
  | some o =>
      obtain ⟨k, hk, _⟩ := hN.bound n o hn
      rw [hover.unlinked hN k] at hk
      cases hk

omit [Fintype κ] [Fintype ω] in
theorem Over.still (hN : Names s) (hover : Over s) :
    Stuck (step E) (Meets E Channel.Calm) s := by
  intro a ha
  unfold step
  split
  · rfl
  · cases a with
    | call k w =>
        obtain ⟨hp, hr⟩ := hover.returned k
        have hs := hover.unlinked hN k
        simp [callStep, hs, Proxy.callStep, hp, hr, Channel.handlerStep]
    | receive i n => simp [hover.queue]
    | worker i r => simp [workerStep, hover.workers i]
    | spuriousCall k | spuriousWorker k => exact (ha _ rfl).elim

/-- **The proxy answers everything**, if the messages are handed over intact as in the model of the
shared memory: any number of calls for files that an `int` can measure and that are not empty, any
number of segments and of workers but none.  In every interleaving in which nothing fails and no
decisive wakeup of an exchange is missed, a run has at most 24 steps for each byte, 6 for each pair
of calls, 61 for each call and four for each spurious wakeup; without spurious wakeups it can stop
only where every call has returned, the queue is empty and the workers are idle, and it can be
continued until then; there every call has been answered with its file, no segment id is bound any
more, and all of them are back in the pool. -/
theorem proxy_ends [Nonempty ω] (segments : ℕ) (E : κ → Channel.Env) (hsegments : 1 ≤ segments)
    (hmode : ∀ k, (E k).mode = .pthread) (hsmall : ∀ k, (E k).contents.length < 2 ^ 31)
    (hcap : ∀ k, 1 ≤ (E k).segmentSize - (E k).sizeofShmData - 1)
    (hfile : ∀ k, (E k).file ≠ some []) (as : List (Act κ ω)) (s : State κ ω)
    (h : exec (step E) (init segments E) as = some s)
    (hok : Along (step E) (Meets E Channel.Clear) (init segments E) as) :
    as.length ≤ ∑ k, (24 * (E k).contents.length + 6 * Fintype.card κ + 61) +
      (as.map Act.credit).sum ∧
    ((∀ a, Meets E Channel.Calm s a → step E s a = none) ↔ Over s) ∧
    (∃ bs t, exec (step E) s bs = some t ∧ Along (step E) (Meets E Channel.Calm) s bs ∧ Over t) ∧
    (Over s → (∀ k, Channel.Answered (E k) (s.proxy.calls k).chan) ∧ (∀ n, s.names n = none) ∧
      s.proxy.fldesQueue.Perm (Proxy.segmentIds segments)) := by
  have hr : Reach (step E) (Meets E Channel.Clear) (init segments E) s := reach_of_along as h hok
  have hpays : Pays (step E) (Meets E Channel.Clear) (init segments E : State κ ω) (State.left E)
    (fun _ => 0) Act.credit := pays_left hsmall hcap
  have hsound : ∀ {t : State κ ω}, Reach (step E) (Meets E Channel.Clear) (init segments E) t →
      Sound segments E t := fun ht => Reachable.sound hsmall hcap ht
  have hover : ∀ {t : State κ ω}, Reach (step E) (Meets E Channel.Clear) (init segments E) t →
      Stuck (step E) (Meets E Channel.Calm) t → Over t := fun ht hstill =>
    (hsound ht).over_of_still hstill hmode hsmall hcap hfile hsegments
  have hcalm : ∀ (t : State κ ω) a, Meets E Channel.Calm t a →
      Meets E Channel.Clear t a ∧ a.credit = 0 := by
    intro t a ha
    refine ⟨fun b hb => (ha b hb).clear.1, ?_⟩
    cases a with
    | spuriousCall k | spuriousWorker k => exact (ha _ rfl).elim
    | _ => rfl
  refine ⟨?_, ⟨hover hr, fun ho => ho.still (hsound hr).names⟩, ?_, fun ho => ?_⟩
  · have hle := hpays.length_le .refl as h hok
    have hinit := left_init (ω := ω) segments hsmall
    omega
  · have hlowers : Lowers (step E) (Meets E Channel.Calm) s (State.left E) :=
      hpays.lowers hr hcalm fun _ _ _ _ _ => rfl
    obtain ⟨bs, t, hbs, hcalms, ht⟩ := hlowers.exists_stuck .refl
    have hrt := hr.trans ((reach_of_along bs hbs hcalms).imp fun t a _ ha => (hcalm t a ha).1)
    exact ⟨bs, t, hbs, hcalms, hover hrt ht⟩
  · have hfaultless : Reach (step E) (Meets E Channel.Faultless) (init segments E) s :=
      hr.imp fun _ _ _ ha b hb => (ha b hb).1
    refine ⟨fun k => ?_, ho.names_none (hsound hr).names, (hsound hr).ids_back fun k => ?_⟩
    · have hk := Reachable.exchange hfaultless k
      obtain ⟨hheader, hbody, hret⟩ := hk.answered (hsmall k) (hcap k) (ho.returned k).2
      exact ⟨hheader, hbody, hret⟩
    · exact .inl (ho.returned k)

def twoFilesOver : State Bool Unit :=
  (exec (step twoFiles) (init 1 twoFiles) twoFilesRun).getD (init 1 twoFiles)

theorem proxy_ends_two : Over twoFilesOver ∧
    twoFilesRun.length ≤ ∑ k, (24 * (twoFiles k).contents.length + 6 * Fintype.card Bool + 61) ∧
    (∀ k, Channel.Answered (twoFiles k) (twoFilesOver.proxy.calls k).chan) ∧
    twoFilesOver.proxy.fldesQueue.Perm (Proxy.segmentIds 1) := by
  have hexec : exec (step twoFiles) (init 1 twoFiles) twoFilesRun = some twoFilesOver :=
    exec_of_isSome twoFilesRun (by decide +kernel)
  have hover : Over twoFilesOver := by
    refine ⟨fun k => ?_, List.isEmpty_iff.mp (by decide +kernel), fun i => ?_⟩
    · cases k <;> decide +kernel
    · cases i
      exact Option.isNone_iff_eq_none.mp (by decide +kernel)
  obtain ⟨hlen, _, _, hends⟩ := proxy_ends 1 twoFiles (Nat.le_refl 1) (by decide) (by decide)
    (by decide) (by decide) twoFilesRun twoFilesOver hexec
    (along_of_execOk twoFilesRun (by decide +kernel))
  obtain ⟨hanswered, _, hback⟩ := hends hover
  exact ⟨hover, hlen, hanswered, hback⟩

end runs

end OsProjects.SharedMemory
