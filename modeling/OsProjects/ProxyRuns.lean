import OsProjects.ExchangeRuns
import OsProjects.ProxyAnswers

/-! # The work of the calls

The proxy of `Proxy.lean`, where every call has a segment and a worker of its own.

* `State.left`, `left_step` — the steps that the calls have left in the pool and in their exchanges;
  a broadcast in the pool makes every other call test once more at most.
* `Due` — a call that sleeps although there is an id has a broadcast coming.
* `callStep_isSome`, `free_of_still` — outside of their exchanges calls can step, unless they wait
  for the mutex or sleep. -/

namespace OsProjects.Proxy

open Monitor Transition

variable {κ : Type*} [DecidableEq κ]
variable {segments : ℕ} {E : κ → Channel.Env} {s s' : State κ} {k : κ} {w : ℤ}

/-! ### The steps that are left -/

/-- The steps that a call has left in the pool, among `n` calls. -/
def CallPc.left (n : ℕ) (gone : Bool) : CallPc → ℕ
  | idle => 6 * n + 16
  | waitSegment w => 6 * n + 12 + w.left
  | pop => 6 * n + 12
  | decrement => 6 * n + 11
  | unlockPop => 6 * n + 10
  | broadcastWrite => 6 * n + 9
  | body => bif gone then 0 else 3 * n + 8
  | waitRoom w => 3 * n + 4 + w.left
  | enqueue => 3 * n + 4
  | increment => 3 * n + 3
  | unlockPut => 3 * n + 2
  | broadcastRead => 3 * n + 1

theorem CallPc.left_wakeRead (n : ℕ) (gone : Bool) (p : CallPc) :
    p.wakeRead.left n gone ≤ p.left n gone + 3 := by
  cases p with
  | waitSegment w =>
      have hwake := w.left_wake
      simp only [wakeRead, left]
      omega
  | _ => exact Nat.le_add_right _ _

theorem CallPc.left_wakeWrite (n : ℕ) (gone : Bool) (p : CallPc) :
    p.wakeWrite.left n gone ≤ p.left n gone + 3 := by
  cases p with
  | waitRoom w =>
      have hwake := w.left_wake
      simp only [wakeWrite, left]
      omega
  | _ => exact Nat.le_add_right _ _

/-- The steps that a call and its worker have left. -/
def Call.left (E : Channel.Env) (n : ℕ) (c : Call) : ℕ :=
  c.pc.left n (released c.chan.hpc) + c.chan.left E

theorem Woken.left {E : Channel.Env} {c c' : Call} (n : ℕ) (h : Woken c c') :
    c'.left E n ≤ c.left E n + 3 := by
  unfold Call.left
  obtain rfl | rfl | rfl := h
  · exact Nat.le_add_right _ _
  · have hwake := c.pc.left_wakeRead n (released c.chan.hpc)
    dsimp only
    omega
  · have hwake := c.pc.left_wakeWrite n (released c.chan.hpc)
    dsimp only
    omega

/-- A spurious wakeup moves a call in the pool or in its exchange. -/
theorem Call.Ok.left_spurious {E : Channel.Env} {c : Call} (n : ℕ) (hc : c.Ok) :
    Call.left E n { c with
      pc := c.pc.wakeRead.wakeWrite
      chan := { c.chan with hpc := c.chan.hpc.wake } } ≤ c.left E n + 3 := by
  have hchan := Channel.left_wakeHandler (E := E) c.chan
  unfold Call.left
  unfold Call.Ok at hc
  dsimp only
  rw [released_wake]
  cases hp : c.pc with
  | waitSegment v =>
      -- the exchange has not begun
      simp only [hp] at hc
      have hwake := CallPc.left_wakeRead n (released c.chan.hpc) (.waitSegment v)
      have hkeep := Channel.left_of_wake_eq (E := E) (s := c.chan) (by rw [hc.1]; rfl)
      simp only [CallPc.wakeRead, CallPc.wakeWrite] at hwake ⊢
      omega
  | waitRoom v =>
      -- the exchange is over
      simp only [hp] at hc
      have hwake := CallPc.left_wakeWrite n (released c.chan.hpc) (.waitRoom v)
      have hkeep := Channel.left_of_wake_eq (E := E) (s := c.chan) (by rw [hc.1]; rfl)
      simp only [CallPc.wakeRead, CallPc.wakeWrite] at hwake ⊢
      omega
  | _ =>
      simp only [CallPc.wakeRead, CallPc.wakeWrite]
      omega

/-- The steps that all calls and workers have left. -/
def State.left [Fintype κ] (E : κ → Channel.Env) (s : State κ) : ℕ :=
  ∑ k, (s.calls k).left (E k) (Fintype.card κ)

/-- A spurious wakeup takes a step and makes a thread test again. -/
def Act.credit : Act κ → ℕ
  | call _ _ | worker _ _ => 0
  | spuriousCall _ | spuriousWorker _ => 4

section work
variable [Fintype κ]

theorem left_alone {p : ℕ} (hother : ∀ j ≠ k, s'.calls j = s.calls j)
    (hk : (s'.calls k).left (E k) (Fintype.card κ) + 1 ≤
      (s.calls k).left (E k) (Fintype.card κ) + p) :
    s'.left E + 1 ≤ s.left E + p := by
  have hsum := sum_step (f := fun j => (s'.calls j).left (E j) (Fintype.card κ))
    (g := fun j => (s.calls j).left (E j) (Fintype.card κ)) k fun j hj => by rw [hother j hj]
  unfold State.left
  omega

theorem left_waking (hframe : ∀ j ≠ k, Woken (s.calls j) (s'.calls j))
    (hk : (s'.calls k).left (E k) (Fintype.card κ) + 3 * Fintype.card κ + 1 ≤
      (s.calls k).left (E k) (Fintype.card κ)) :
    s'.left E + 1 ≤ s.left E := by
  have hsum := sum_step_le (f := fun j => (s'.calls j).left (E j) (Fintype.card κ))
    (g := fun j => (s.calls j).left (E j) (Fintype.card κ)) k 3 fun j hj =>
      (hframe j hj).left (Fintype.card κ)
  unfold State.left
  omega

theorem left_callStep (hC : Counter s) (hO : (s.calls k).Ok) (hsmall : (E k).contents.length < 2 ^ 31)
    (hI : Channel.Inv (E k) (s.calls k).chan) (hF : Channel.Filled (E k) (s.calls k).chan)
    (hw : Channel.Faultless (s.calls k).chan (.handler w)) (h : callStep E s k w = some s') :
    s'.left E + 1 ≤ s.left E := by
  have hframe := callStep_frame h
  unfold callStep at h
  unfold Call.Ok at hO
  cases hp : (s.calls k).pc with
  | waitSegment p =>
      simp only [hp, State.wait, Option.map_eq_some_iff] at h
      obtain ⟨⟨_, q⟩, hs, rfl⟩ := h
      have hleft := Wait.left_of_step hs
      refine left_alone (p := 0) (fun j hj => setCall_of_ne _ _ _ hj) ?_
      cases q <;> simp only [setCall_self, Option.elim, Call.left, CallPc.left, hp] at hleft ⊢ <;>
        omega
  | waitRoom p =>
      simp only [hp, State.wait, Option.map_eq_some_iff] at h
      obtain ⟨⟨_, q⟩, hs, rfl⟩ := h
      have hleft := Wait.left_of_step hs
      refine left_alone (p := 0) (fun j hj => setCall_of_ne _ _ _ hj) ?_
      cases q <;> simp only [setCall_self, Option.elim, Call.left, CallPc.left, hp] at hleft ⊢ <;>
        omega
  | pop =>
      simp only [hp] at h hO
      have hcrit := hC.crit k (by rw [hp]; rfl)
      simp only [hp, CallPc.Crit] at hcrit
      split at h <;> obtain rfl := Option.some.inj h
      · next hq => simp [hq, hcrit.2] at hcrit
      · refine left_alone (p := 0) (fun j hj => setCall_of_ne _ _ _ hj) ?_
        simp only [setCall_self, Call.left, CallPc.left, hp]
        omega
  | body =>
      simp only [hp] at h
      split at h
      · next hr =>
          obtain rfl := Option.some.inj h
          refine left_alone (p := 0) (fun j hj => setCall_of_ne _ _ _ hj) ?_
          simp only [setCall_self, Call.left, CallPc.left, hp, hr, released, Wait.left, cond_false]
          omega
      · next hr =>
          obtain ⟨ch, hch, rfl⟩ := Option.map_eq_some_iff.mp h
          have hlt := Channel.left_handlerStep hsmall hI hF hw hch
          refine left_alone (p := 0) (fun j hj => setCall_of_ne _ _ _ hj) ?_
          simp only [setCall_self, Call.left, hp, released_handlerStep hch hr]
          omega
  | broadcastWrite =>
      simp only [hp, Option.some.injEq] at h hO
      subst h
      refine left_waking hframe ?_
      simp only [setCall_self, Call.left, CallPc.left, hp, hO.1, released, cond_false]
      omega
  | broadcastRead =>
      simp only [hp, Option.some.injEq] at h hO
      subst h
      refine left_waking hframe ?_
      have hreply := Channel.left_release (E := E k) hO.1
      simp only [setCall_self, Call.left, CallPc.left, hp, released, cond_true]
      omega
  | _ =>
      simp only [hp, Option.some.injEq] at h hO
      subst h
      refine left_alone (p := 0) (fun j hj => setCall_of_ne _ _ _ hj) ?_
      simp only [setCall_self, Call.left, CallPc.left, hp, Wait.left]
      omega

/-- **Every step of the proxy is paid for.** -/
theorem left_step {a : Act κ} (hC : Counter s) (hO : ∀ k, (s.calls k).Ok)
    (hsmall : ∀ k, (E k).contents.length < 2 ^ 31)
    (hI : ∀ k, Channel.Inv (E k) (s.calls k).chan)
    (hF : ∀ k, Channel.Filled (E k) (s.calls k).chan)
    (ha : Channel.Faultless (s.calls a.subject).chan a.inner) (h : step E s a = some s') :
    s'.left E + 1 ≤ s.left E + a.credit := by
  unfold step at h
  split at h
  · cases h
  · cases a with
    | call k w => exact left_callStep hC (hO k) (hsmall k) (hI k) (hF k) ha h
    | worker k r =>
        obtain ⟨ch, hch, rfl⟩ := Option.map_eq_some_iff.mp h
        have hlt := Channel.left_workerStep (hI k) (hF k) hch
        refine left_alone (fun j hj => setCall_of_ne _ _ _ hj) ?_
        have hrel : released ch.hpc = released (s.calls k).chan.hpc := by
          obtain h | h := hpc_workerStep hch <;> simp [h]
        simp only [setCall_self, Call.left, hrel]
        omega
    | spuriousCall k =>
        obtain rfl := Option.some.inj h
        refine left_alone (k := k) (fun j hj => setCall_of_ne _ _ _ hj) ?_
        rw [setCall_self]
        exact Nat.succ_le_succ ((hO k).left_spurious (Fintype.card κ))
    | spuriousWorker k =>
        obtain rfl := Option.some.inj h
        have hwake := Channel.left_wakeWorker (E := E k) (s.calls k).chan
        refine left_alone (k := k) (fun j hj => setCall_of_ne _ _ _ hj) ?_
        simp only [setCall_self, Call.left, Act.credit]
        omega

end work

/-! ### Waiting for an id -/

/-- The call has given its id back and is about to wake the calls that wait for one. -/
def CallPc.tells : CallPc → Bool
  | unlockPut | broadcastRead => true
  | _ => false

/-- A call that is about to sleep has seen no id, and a call that sleeps although there is one has a
broadcast coming. -/
structure Due (s : State κ) : Prop where
  sleep : ∀ k, (s.calls k).pc = .waitSegment .sleep → s.fldesQueueSize = 0
  asleep : ∀ k, (s.calls k).pc = .waitSegment .asleep →
    s.fldesQueueSize = 0 ∨ ∃ j, (s.calls j).pc.tells = true

theorem Woken.tells {c c' : Call} (h : Woken c c') : c'.pc.tells = c.pc.tells := by
  obtain rfl | rfl | rfl := h
  · rfl
  · cases hp : c.pc <;> rfl
  · cases hp : c.pc <;> rfl

theorem Woken.drowsy {c c' : Call} {v : Wait} (h : Woken c c') (hv : v.drowsy = true)
    (hp : c'.pc = .waitSegment v) : c.pc = .waitSegment v := by
  obtain rfl | rfl | rfl := h
  · exact hp
  · cases hc : c.pc with
    | waitSegment u =>
        simp only [hc, CallPc.wakeRead, CallPc.waitSegment.injEq] at hp
        have hu : u = .sleep := Wait.eq_sleep_of_wake (by rw [hp]; exact hv)
        rw [← hp, hu]
        rfl
    | _ => simp [hc, CallPc.wakeRead] at hp
  · cases hc : c.pc <;> simp_all [CallPc.wakeWrite]

omit [DecidableEq κ] in
/-- A step that does not change the counter. -/
theorem Due.outside (hD : Due s) (hframe : ∀ j ≠ k, Woken (s.calls j) (s'.calls j))
    (hsize : s'.fldesQueueSize = s.fldesQueueSize)
    (htells : (s.calls k).pc.tells = true → (s'.calls k).pc.tells = true)
    (hdrowsy : ∀ v, (s'.calls k).pc = .waitSegment v → v.drowsy = true → s.fldesQueueSize = 0) :
    Due s' := by
  constructor
  · intro j hj
    rw [hsize]
    by_cases hjk : j = k
    · subst hjk
      exact hdrowsy _ hj rfl
    · exact hD.sleep j ((hframe j hjk).drowsy rfl hj)
  · intro j hj
    rw [hsize]
    by_cases hjk : j = k
    · subst hjk
      exact .inl (hdrowsy _ hj rfl)
    · refine (hD.asleep j ((hframe j hjk).drowsy rfl hj)).imp_right fun ⟨i, hi⟩ => ⟨i, ?_⟩
      by_cases hik : i = k
      · subst hik
        exact htells hi
      · rw [(hframe i hik).tells]
        exact hi

omit [DecidableEq κ] in
/-- A step of the call that holds the mutex. -/
theorem Due.inside (hC : Counter s) (hD : Due s) (hframe : ∀ j ≠ k, Woken (s.calls j) (s'.calls j))
    (hk : (s.calls k).pc.holds = true) (hk' : ∀ v, (s'.calls k).pc ≠ .waitSegment v)
    (hdue : (s.fldesQueueSize = 0 ∨ ∃ j, (s.calls j).pc.tells = true) →
      s'.fldesQueueSize = 0 ∨ ∃ j, (s'.calls j).pc.tells = true) : Due s' := by
  constructor
  · intro j hj
    by_cases hjk : j = k
    · subst hjk
      exact absurd hj (hk' _)
    · have hsleep := (hframe j hjk).drowsy rfl hj
      exact absurd (hC.lock.unique (by rw [hsleep]; rfl) hk) hjk
  · intro j hj
    by_cases hjk : j = k
    · subst hjk
      exact absurd hj (hk' _)
    · exact hdue (hD.asleep j ((hframe j hjk).drowsy rfl hj))

theorem Due.callStep (hC : Counter s) (hD : Due s) (h : callStep E s k w = some s') : Due s' := by
  have hframe := callStep_frame h
  have hcrit := hC.crit k
  unfold Proxy.callStep at h
  cases hp : (s.calls k).pc with
  | waitSegment p =>
      simp only [hp, State.wait, Option.map_eq_some_iff] at h
      obtain ⟨⟨op, q⟩, hs, rfl⟩ := h
      refine hD.outside hframe rfl (by simp [hp, CallPc.tells]) fun v hv hdv => ?_
      cases q with
      | none => simp at hv
      | some u =>
          obtain rfl : u = v := by simpa using hv
          cases u with
          | sleep => simpa using Wait.failed_of_step_sleep hs
          | asleep =>
              obtain rfl := Wait.eq_sleep_of_step_asleep hs
              exact hD.sleep k hp
          | _ => cases hdv
  | waitRoom p =>
      simp only [hp, State.wait, Option.map_eq_some_iff] at h
      obtain ⟨⟨op, q⟩, hs, rfl⟩ := h
      refine hD.outside hframe rfl (by simp [hp, CallPc.tells]) fun v hv _ => ?_
      cases q <;> simp at hv
  | pop =>
      simp only [hp] at h
      split at h <;> obtain rfl := Option.some.inj h
      · exact ⟨hD.sleep, hD.asleep⟩
      · exact hD.outside hframe rfl (by simp [hp, CallPc.tells]) (by simp)
  | decrement =>
      simp only [hp, Option.some.injEq] at h hcrit
      subst h
      have hsize := hcrit rfl
      simp only [CallPc.Crit] at hsize
      refine hD.inside hC hframe (by rw [hp]; rfl) (by simp) ?_
      rintro (hzero | ⟨j, hj⟩)
      · omega
      · have hjk : j ≠ k := by
          rintro rfl
          rw [hp] at hj
          cases hj
        refine .inr ⟨j, ?_⟩
        rw [(hframe j hjk).tells]
        exact hj
  | increment =>
      simp only [hp, Option.some.injEq] at h
      subst h
      exact hD.inside hC hframe (by rw [hp]; rfl) (by simp) fun _ => .inr ⟨k, by simp [CallPc.tells]⟩
  | broadcastRead =>
      simp only [hp, Option.some.injEq] at h
      subst h
      constructor
      · intro j hj
        by_cases hjk : j = k
        · subst hjk
          simp at hj
        · exact hD.sleep j ((hframe j hjk).drowsy rfl hj)
      · -- nobody sleeps any more
        intro j hj
        by_cases hjk : j = k
        · subst hjk
          simp at hj
        · simp only [setCall_of_ne _ _ _ hjk, State.wakeAll] at hj
          cases hpj : (s.calls j).pc with
          | waitSegment v => cases v <;> simp [hpj, CallPc.wakeRead, Wait.wake] at hj
          | _ => simp [hpj, CallPc.wakeRead] at hj
  | idle =>
      simp only [hp, Option.some.injEq] at h
      subst h
      refine hD.outside hframe rfl (by simp [hp, CallPc.tells]) fun v hv hdv => ?_
      obtain rfl : Wait.lock = v := by simpa using hv
      cases hdv
  | body =>
      simp only [hp] at h
      split at h
      · obtain rfl := Option.some.inj h
        exact hD.outside hframe rfl (by simp [hp, CallPc.tells]) (by simp)
      · obtain ⟨ch, _, rfl⟩ := Option.map_eq_some_iff.mp h
        exact hD.outside hframe rfl (by simp [hp, CallPc.tells]) (by simp)
  | unlockPut =>
      simp only [hp, Option.some.injEq] at h
      subst h
      exact hD.outside hframe rfl (by simp [CallPc.tells]) (by simp)
  | _ =>
      simp only [hp, Option.some.injEq] at h
      subst h
      exact hD.outside hframe rfl (by simp [hp, CallPc.tells]) (by simp)

theorem pc_setChan (s : State κ) (k : κ) (ch : Channel.State) (j : κ) :
    ((s.setCall k { s.calls k with chan := ch }).calls j).pc = (s.calls j).pc := by
  by_cases hjk : j = k
  · subst hjk
    rw [setCall_self]
  · rw [setCall_of_ne _ _ _ hjk]

omit [DecidableEq κ] in
/-- A step in which calls are woken at most. -/
theorem Due.same (hD : Due s) (hsize : s'.fldesQueueSize = s.fldesQueueSize)
    (hdrowsy : ∀ j v, v.drowsy = true → (s'.calls j).pc = .waitSegment v →
      (s.calls j).pc = .waitSegment v)
    (htells : ∀ j, (s'.calls j).pc.tells = (s.calls j).pc.tells) : Due s' := by
  constructor
  · intro j hj
    rw [hsize]
    exact hD.sleep j (hdrowsy j _ rfl hj)
  · intro j hj
    simp only [hsize, htells]
    exact hD.asleep j (hdrowsy j _ rfl hj)

theorem Due.step {a : Act κ} (hC : Counter s) (hD : Due s) (h : step E s a = some s') : Due s' := by
  have hframe := step_frame h
  unfold Proxy.step at h
  split at h
  · cases h
  · cases a with
    | call k w => exact hD.callStep hC h
    | worker k r =>
        obtain ⟨ch, _, rfl⟩ := Option.map_eq_some_iff.mp h
        have hpc := pc_setChan s k ch
        exact hD.same rfl (fun j v _ hj => by rwa [hpc j] at hj) fun j => by rw [hpc j]
    | spuriousWorker k =>
        obtain rfl := Option.some.inj h
        have hpc := pc_setChan s k { (s.calls k).chan with wpc := (s.calls k).chan.wpc.wake }
        exact hD.same rfl (fun j v _ hj => by rwa [hpc j] at hj) fun j => by rw [hpc j]
    | spuriousCall k =>
        have hread : Woken (s.calls k) { s.calls k with pc := (s.calls k).pc.wakeRead } :=
          .inr (.inl rfl)
        have hwrite : Woken { s.calls k with pc := (s.calls k).pc.wakeRead }
            { s.calls k with pc := (s.calls k).pc.wakeRead.wakeWrite } := .inr (.inr rfl)
        obtain rfl := Option.some.inj h
        refine hD.same rfl (fun j v hv hj => ?_) fun j => ?_
        · by_cases hjk : j = k
          · subst hjk
            rw [setCall_self] at hj
            exact hread.drowsy hv (hwrite.drowsy hv hj)
          · exact (hframe j hjk).drowsy hv hj
        · by_cases hjk : j = k
          · subst hjk
            rw [setCall_self]
            exact hwrite.tells.trans hread.tells
          · exact (hframe j hjk).tells

omit [DecidableEq κ] in
theorem due_init (segments : ℕ) (E : κ → Channel.Env) : Due (init segments E) where
  sleep k hk := by cases hk
  asleep k hk := by cases hk

theorem Reachable.due (h : Reachable segments E s) : Due s :=
  h.invariant_of (fun _ => Reachable.counter) (due_init segments E) fun _ _ _ hC hD _ hs =>
    hD.step hC hs

/-! ### Calls that can step -/

/-- Outside of its exchange a call can step if it does not sleep and need not wait for the mutex. -/
theorem callStep_isSome (E : κ → Channel.Env) (w : ℤ) (hbody : (s.calls k).pc ≠ .body)
    (hsegment : (s.calls k).pc ≠ .waitSegment .asleep) (hroom : (s.calls k).pc ≠ .waitRoom .asleep)
    (hfree : s.fldesMutex = none ∨ (s.calls k).pc.holds = true) :
    (callStep E s k w).isSome = true := by
  have hwait : ∀ (v : Wait) ok point next, v ≠ .asleep →
      (s.fldesMutex = none ∨ v.holds = true) → (s.wait k ok point next v).isSome = true := by
    intro v ok point next hv hm
    unfold State.wait
    rw [Option.isSome_map]
    exact Wait.step_isSome hv (hm.imp_left fun hn => by rw [hn]; rfl)
  unfold callStep
  cases hp : (s.calls k).pc with
  | waitSegment v =>
      rw [hp] at hfree hsegment
      simp only [hp]
      exact hwait v _ _ _ (fun hv => hsegment (by rw [hv])) hfree
  | waitRoom v =>
      rw [hp] at hfree hroom
      simp only [hp]
      exact hwait v _ _ _ (fun hv => hroom (by rw [hv])) hfree
  | body => exact absurd hp hbody
  | pop =>
      simp only [hp]
      split <;> rfl
  | _ =>
      simp only [hp]
      rfl

/-- Where no call outside of its exchange can step the mutex is free: its holder could step. -/
theorem free_of_still (hC : Counter s)
    (hstill : ∀ k w, (s.calls k).pc ≠ .body → callStep E s k w = none) :
    s.fldesMutex = none := by
  by_contra hne
  obtain ⟨k, hk⟩ := Option.ne_none_iff_exists'.mp hne
  have hholds : (s.calls k).pc.holds = true := (hC.lock k).mp hk
  have hbody : (s.calls k).pc ≠ .body := by
    intro hp
    rw [hp] at hholds
    cases hholds
  have hsome : (callStep E s k 0).isSome = true := by
    refine callStep_isSome E 0 hbody (fun hp => ?_) (fun hp => ?_) (.inr hholds) <;>
      rw [hp] at hholds <;> cases hholds
  rw [hstill k 0 hbody] at hsome
  cases hsome

end OsProjects.Proxy
