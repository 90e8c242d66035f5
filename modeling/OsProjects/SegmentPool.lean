import OsProjects.Pool
import OsProjects.ProxyCalls

/-! # The pool of segments

`fldes_queue` is a pool in the sense of `Pool.lean`: a call takes an id when it pops it and gives
it back when it enqueues it, and every other step leaves the pool alone (`pool_step`).  The
counter `fldes_queue_size` agrees with the queue except between the change of one and the change
of the other, inside `fldes_mutex` (`Counter`).  Together (`segment_pool`), for any number of
segments, calls and steps: the counter is right outside of the critical sections, ids are with
one call or in the queue, `steque_pop` never meets an empty queue, and the wait in
`destroy_shm_seg` never blocks. -/

namespace OsProjects.Proxy

open Monitor Transition

variable {κ : Type*} [DecidableEq κ]

variable {segments : ℕ} {E : κ → Channel.Env} {s s' : State κ} {k : κ} {w : ℤ}

/-! ### Refinement of the pool -/

/-- The pool part of a state. -/
def State.pool (s : State κ) : Pool.State (List Byte) κ where
  free := s.fldesQueue
  owner k := (s.calls k).held

omit [DecidableEq κ] in
theorem State.pool_ext {p : Pool.State (List Byte) κ} (hq : s.fldesQueue = p.free)
    (hc : ∀ j, (s.calls j).held = p.owner j) : s.pool = p := by
  obtain ⟨free, owner⟩ := p
  unfold State.pool
  congr 1
  exact funext hc

/-- The pool stands still or makes one move. -/
def PoolMove (s s' : State κ) : Prop :=
  s'.pool = s.pool ∨ ∃ m, Pool.step s.pool m = some s'.pool

/-- A step after which every call holds what it held leaves the pool alone. -/
theorem PoolMove.stay (hq : s'.fldesQueue = s.fldesQueue)
    (hframe : ∀ j ≠ k, Woken (s.calls j) (s'.calls j))
    (hheld : (s'.calls k).held = (s.calls k).held) : PoolMove s s' := by
  refine .inl (State.pool_ext hq fun j => ?_)
  rcases eq_or_ne j k with rfl | hj
  · exact hheld
  · exact (hframe j hj).held

theorem poolMove_callStep (hO : (s.calls k).Ok) (h : callStep E s k w = some s') :
    PoolMove s s' := by
  have hframe := callStep_frame h
  unfold callStep at h
  unfold Call.Ok at hO
  cases hp : (s.calls k).pc with
  | waitSegment p | waitRoom p =>
      simp only [hp, State.wait, Option.map_eq_some_iff] at h
      obtain ⟨⟨_, q⟩, _, rfl⟩ := h
      refine PoolMove.stay rfl hframe ?_
      cases q <;> simp [Call.held, CallPc.owns, hp]
  | pop =>
      simp only [hp] at h
      split at h <;> obtain rfl := Option.some.inj h
      · exact .inl rfl
      · next i q hq =>
          refine .inr ⟨.acquire k, ?_⟩
          have hnone : s.pool.owner k = none := by simp [State.pool, Call.held, CallPc.owns, hp]
          have hfree : s.pool.free = i :: q := hq
          simp only [Pool.step, hfree, hnone, Option.some.injEq]
          refine (State.pool_ext rfl fun j => ?_).symm
          rcases eq_or_ne j k with rfl | hj
          · simp [Call.held, CallPc.owns]
          · simp only [Function.update_of_ne hj]
            exact (hframe j hj).held
  | body =>
      simp only [hp] at h
      split at h
      · next hr =>
          obtain rfl := Option.some.inj h
          refine PoolMove.stay rfl hframe ?_
          simp [Call.held, CallPc.owns, hp, hr, released]
      · next hr =>
          obtain ⟨ch, hch, rfl⟩ := Option.map_eq_some_iff.mp h
          refine PoolMove.stay rfl hframe ?_
          simp [Call.held, CallPc.owns, hp, released_handlerStep hch hr]
  | enqueue =>
      simp only [hp, Option.some.injEq] at h
      subst h
      refine .inr ⟨.release k, ?_⟩
      have hsome : s.pool.owner k = some (s.calls k).fldes := by
        simp [State.pool, Call.held, CallPc.owns, hp]
      simp only [Pool.step, hsome, Option.some.injEq]
      refine (State.pool_ext rfl fun j => ?_).symm
      rcases eq_or_ne j k with rfl | hj
      · simp [Call.held, CallPc.owns]
      · simp only [Function.update_of_ne hj]
        exact (hframe j hj).held
  | _ =>
      simp only [hp, Option.some.injEq] at h hO
      subst h
      refine PoolMove.stay rfl hframe ?_
      simp [Call.held, CallPc.owns, hp, released, hO.1]

/-- **Every step of the proxy stands still or moves in the pool.** -/
theorem pool_step {a : Act κ} (hO : ∀ k, (s.calls k).Ok) (h : step E s a = some s') :
    PoolMove s s' := by
  have hframe := step_frame h
  unfold step at h
  split at h
  · cases h
  · cases a with
    | call k w => exact poolMove_callStep (hO k) h
    | worker k r =>
        obtain ⟨ch, hch, rfl⟩ := Option.map_eq_some_iff.mp h
        refine PoolMove.stay rfl hframe ?_
        have hrel : released ch.hpc = released (s.calls k).chan.hpc := by
          obtain h | h := hpc_workerStep hch <;> simp [h]
        simp [Call.held, Act.subject, hrel]
    | spuriousCall k =>
        obtain rfl := Option.some.inj h
        refine PoolMove.stay rfl hframe ?_
        simp [Call.held, Act.subject]
    | spuriousWorker k =>
        obtain rfl := Option.some.inj h
        refine PoolMove.stay rfl hframe ?_
        simp [Call.held, Act.subject]

/-- Different segments have different ids. -/
theorem segmentId_injective : Function.Injective segmentId := by
  intro i j h
  unfold segmentId at h
  exact decimal_injective (List.append_cancel_left h)

theorem segmentIds_nodup (segments : ℕ) : (segmentIds segments).Nodup :=
  List.nodup_range.map segmentId_injective

@[simp] theorem length_segmentIds (segments : ℕ) : (segmentIds segments).length = segments := by
  simp [segmentIds]

/-- A run of the proxy is a run of the pool of its ids. -/
theorem Reachable.pool (h : Reachable segments E s) : Pool.Inv (segmentIds segments) s.pool := by
  apply Pool.inv_of_reach (segmentIds_nodup segments)
  have hinit : (init segments E).pool = Pool.init (segmentIds segments) := by
    simp [init, State.pool, Pool.init, Call.held, CallPc.owns]
  rw [← hinit]
  apply h.map State.pool
  intro s a s' hr _ hs
  obtain heq | ⟨m, hm⟩ := pool_step (Reachable.callOk hr) hs
  · rw [heq]
    exact .refl
  · exact Reach.single trivial hm

/-! ### The mutex and the counter -/

/-- How the counter stands to the queue while the call at this point holds `fldes_mutex`. -/
def CallPc.Crit (size len : ℤ) : CallPc → Prop
  | pop => size = len ∧ size ≠ 0
  | decrement => size = len + 1
  | increment => size = len - 1
  | _ => size = len

@[simp] theorem CallPc.Crit_wakeRead (size len : ℤ) (p : CallPc) :
    p.wakeRead.Crit size len ↔ p.Crit size len := by
  cases p <;> rfl

@[simp] theorem CallPc.Crit_wakeWrite (size len : ℤ) (p : CallPc) :
    p.wakeWrite.Crit size len ↔ p.Crit size len := by
  cases p <;> rfl

theorem Woken.crit {c c' : Call} {size len : ℤ} (h : Woken c c') :
    c'.pc.Crit size len ↔ c.pc.Crit size len := by
  obtain rfl | rfl | rfl := h <;> simp

/-- `fldes_mutex` is held by the call in its critical section, and the counter agrees with the
queue as far as that call is. -/
structure Counter (s : State κ) : Prop where
  lock : HeldBy s.fldesMutex fun k => (s.calls k).pc.holds
  free : s.fldesMutex = none → s.fldesQueueSize = s.fldesQueue.length
  crit : ∀ k, (s.calls k).pc.holds = true →
    (s.calls k).pc.Crit s.fldesQueueSize s.fldesQueue.length

theorem heldBy_of_frame {m : Option κ} {b : Bool}
    (hm : HeldBy m (Function.update (fun j => (s.calls j).pc.holds) k b))
    (hk : (s'.calls k).pc.holds = b) (hframe : ∀ j ≠ k, Woken (s.calls j) (s'.calls j)) :
    HeldBy m fun j => (s'.calls j).pc.holds := by
  have heq : (fun j => (s'.calls j).pc.holds) =
      Function.update (fun j => (s.calls j).pc.holds) k b := by
    funext j
    rcases eq_or_ne j k with rfl | hj
    · rw [Function.update_self, hk]
    · rw [Function.update_of_ne hj, (hframe j hj).holds]
  rw [heq]
  exact hm

/-- A call outside of the critical sections leaves mutex, counter and queue alone. -/
theorem Counter.outside (hC : Counter s) (hframe : ∀ j ≠ k, Woken (s.calls j) (s'.calls j))
    (hk : (s.calls k).pc.holds = false) (hk' : (s'.calls k).pc.holds = false)
    (hm : s'.fldesMutex = s.fldesMutex) (hsize : s'.fldesQueueSize = s.fldesQueueSize)
    (hq : s'.fldesQueue = s.fldesQueue) : Counter s' := by
  obtain ⟨hlock, hfree, hcrit⟩ := hC
  refine ⟨?_, ?_, ?_⟩
  · rw [hm]
    exact heldBy_of_frame (hlock.keep hk) hk' hframe
  · rw [hm, hsize, hq]
    exact hfree
  · intro j hj
    rcases eq_or_ne j k with rfl | hjk
    · rw [hk'] at hj
      cases hj
    · rw [(hframe j hjk).holds] at hj
      rw [hsize, hq, (hframe j hjk).crit]
      exact hcrit j hj

/-- A step of the call that holds the mutex. -/
theorem Counter.inside (hC : Counter s) (hframe : ∀ j ≠ k, Woken (s.calls j) (s'.calls j))
    (hk : (s.calls k).pc.holds = true)
    (hm : s'.fldesMutex = if (s'.calls k).pc.holds then s.fldesMutex else none)
    (hcrit : (s'.calls k).pc.Crit s'.fldesQueueSize s'.fldesQueue.length)
    (hfree : (s'.calls k).pc.holds = false → s'.fldesQueueSize = s'.fldesQueue.length) :
    Counter s' := by
  have hlock := hC.lock
  have hmk := (hlock k).mpr hk
  cases hk' : (s'.calls k).pc.holds with
  | true =>
      rw [hk'] at hm
      refine ⟨?_, ?_, ?_⟩
      · rw [hm]
        exact heldBy_of_frame (hlock.keep hk) hk' hframe
      · intro hn
        simp [hm, hmk] at hn
      · intro j hj
        rcases eq_or_ne j k with rfl | hjk
        · exact hcrit
        · rw [(hframe j hjk).holds] at hj
          exact absurd (hlock.unique hj hk) hjk
  | false =>
      rw [hk'] at hm
      refine ⟨?_, fun _ => hfree hk', ?_⟩
      · rw [hm]
        exact heldBy_of_frame (hlock.drop hk) hk' hframe
      · intro j hj
        rcases eq_or_ne j k with rfl | hjk
        · exact hcrit
        · rw [(hframe j hjk).holds] at hj
          exact absurd (hlock.unique hj hk) hjk

omit [DecidableEq κ] in
/-- A call that can step in a waiting loop sees the counter right. -/
theorem Counter.size_of_wait {point : Wait → CallPc} {ok : Bool} {p : Wait} {op : MutexOp}
    {q : Option Wait} (hC : Counter s) (hp : (s.calls k).pc = point p)
    (hholds : ∀ w, (point w).holds = w.holds)
    (hcrit : ∀ w size len, (point w).Crit size len → size = len)
    (hs : p.step .pthread s.fldesMutex.isNone ok = some (op, q)) :
    s.fldesQueueSize = s.fldesQueue.length := by
  have hin : p.holds = true → s.fldesQueueSize = s.fldesQueue.length := by
    intro hw
    have hk := hC.crit k (by rw [hp, hholds, hw])
    rw [hp] at hk
    exact hcrit p _ _ hk
  have hout : s.fldesMutex.isNone = true → s.fldesQueueSize = s.fldesQueue.length :=
    fun hn => hC.free (Option.isNone_iff_eq_none.mp hn)
  rcases Wait.step_cases hs with ⟨_, _, hn, _⟩ | ⟨_, _, hn, _⟩ | ⟨rfl, _⟩ | ⟨rfl, _⟩ | ⟨rfl, _⟩ |
    ⟨_, hn, _⟩
  · exact hout hn
  · exact hout hn
  · exact hin rfl
  · exact hin rfl
  · exact hin rfl
  · exact hout hn

theorem Counter.wait {point : Wait → CallPc} {next : CallPc} {ok : Bool} {p : Wait}
    (hC : Counter s) (hp : (s.calls k).pc = point p) (hholds : ∀ w, (point w).holds = w.holds)
    (hcrit : ∀ w size len, (point w).Crit size len ↔ size = len) (hnext : next.holds = true)
    (hok : ok = true → s.fldesQueueSize = s.fldesQueue.length →
      next.Crit s.fldesQueueSize s.fldesQueue.length)
    (h : s.wait k ok point next p = some s') : Counter s' := by
  unfold State.wait at h
  obtain ⟨⟨op, q⟩, hs, rfl⟩ := Option.map_eq_some_iff.mp h
  have hsize := hC.size_of_wait hp hholds (fun w size len => (hcrit w size len).mp) hs
  refine ⟨?_, fun _ => hsize, ?_⟩
  · refine heldBy_of_frame (hC.lock.wait (by simp only [hp, hholds]) hs) ?_
      fun j hj => .inl (setCall_of_ne _ _ _ hj)
    cases q <;> simp [hnext, hholds]
  · intro j hj
    rcases eq_or_ne j k with rfl | hjk
    · cases q with
      | none => simpa using hok (Wait.ok_of_step_none hs) hsize
      | some v => simpa using (hcrit v _ _).mpr hsize
    · simp only [setCall_of_ne _ _ _ hjk] at hj ⊢
      exact hC.crit j hj

theorem Counter.callStep (hC : Counter s) (h : callStep E s k w = some s') : Counter s' := by
  have hframe := callStep_frame h
  have hcrit := hC.crit k
  unfold Proxy.callStep at h
  cases hp : (s.calls k).pc with
  | waitSegment p =>
      simp only [hp] at h
      refine hC.wait hp (fun _ => rfl) (fun _ _ _ => Iff.rfl) rfl (fun hok hsize => ?_) h
      exact ⟨hsize, by simpa using hok⟩
  | waitRoom p =>
      simp only [hp] at h
      refine hC.wait hp (fun _ => rfl) (fun _ _ _ => Iff.rfl) rfl (fun _ hsize => ?_) h
      exact hsize
  | pop =>
      simp only [hp] at h hcrit
      obtain ⟨hsize, hne⟩ := hcrit rfl
      split at h <;> obtain rfl := Option.some.inj h
      · next hq => simp [hq, hne] at hsize
      · next i q hq =>
          refine hC.inside hframe (by rw [hp]; rfl) (by simp [CallPc.holds]) ?_
            (by simp [CallPc.holds])
          rw [hq] at hsize
          simpa [CallPc.Crit] using hsize
  | decrement | enqueue | increment =>
      simp only [hp, Option.some.injEq] at h hcrit
      subst h
      refine hC.inside hframe (by rw [hp]; rfl) (by simp [CallPc.holds]) ?_ (by simp [CallPc.holds])
      have hsize := hcrit rfl
      simp only [CallPc.Crit] at hsize
      simp [CallPc.Crit, hsize]
  | unlockPop | unlockPut =>
      simp only [hp, Option.some.injEq] at h hcrit
      subst h
      exact hC.inside hframe (by rw [hp]; rfl) (by simp [CallPc.holds])
        (by simpa [CallPc.Crit] using hcrit rfl) (fun _ => by simpa [CallPc.Crit] using hcrit rfl)
  | body =>
      simp only [hp] at h
      split at h
      · obtain rfl := Option.some.inj h
        exact hC.outside hframe (by rw [hp]; rfl) (by simp [CallPc.holds, Wait.holds]) rfl rfl rfl
      · obtain ⟨ch, _, rfl⟩ := Option.map_eq_some_iff.mp h
        exact hC.outside hframe (by rw [hp]; rfl) (by simp [CallPc.holds]) rfl rfl rfl
  | idle | broadcastWrite | broadcastRead =>
      simp only [hp, Option.some.injEq] at h
      subst h
      exact hC.outside hframe (by rw [hp]; rfl) (by simp [CallPc.holds, Wait.holds]) rfl rfl rfl

omit [DecidableEq κ] in
/-- A step that moves no call in the pool. -/
theorem Counter.congr (hC : Counter s) (hholds : ∀ j, (s'.calls j).pc.holds = (s.calls j).pc.holds)
    (hcrit : ∀ j size len, (s'.calls j).pc.Crit size len ↔ (s.calls j).pc.Crit size len)
    (hm : s'.fldesMutex = s.fldesMutex) (hsize : s'.fldesQueueSize = s.fldesQueueSize)
    (hq : s'.fldesQueue = s.fldesQueue) : Counter s' := by
  obtain ⟨hlock, hfree, hc⟩ := hC
  refine ⟨?_, ?_, ?_⟩
  · intro j
    simp only [hm, hlock j, hholds j]
  · rw [hm, hsize, hq]
    exact hfree
  · intro j hj
    rw [hholds j] at hj
    rw [hsize, hq, hcrit j]
    exact hc j hj

theorem Counter.step {a : Act κ} (hC : Counter s) (h : step E s a = some s') : Counter s' := by
  unfold Proxy.step at h
  split at h
  · cases h
  · cases a with
    | call k w => exact hC.callStep h
    | worker k r =>
        obtain ⟨ch, _, rfl⟩ := Option.map_eq_some_iff.mp h
        refine hC.congr (fun j => ?_) (fun j size len => ?_) rfl rfl rfl <;>
          rcases eq_or_ne j k with rfl | hj
        · simp
        · rw [setCall_of_ne _ _ _ hj]
        · simp
        · rw [setCall_of_ne _ _ _ hj]
    | spuriousCall k | spuriousWorker k =>
        obtain rfl := Option.some.inj h
        refine hC.congr (fun j => ?_) (fun j size len => ?_) rfl rfl rfl <;>
          rcases eq_or_ne j k with rfl | hj
        · simp
        · rw [setCall_of_ne _ _ _ hj]
        · simp
        · rw [setCall_of_ne _ _ _ hj]

omit [DecidableEq κ] in
theorem counter_init (segments : ℕ) (E : κ → Channel.Env) : Counter (init segments E) where
  lock k := by simp [init, CallPc.holds]
  free _ := rfl
  crit k hk := by simp [init, CallPc.holds] at hk

theorem Reachable.counter (h : Reachable segments E s) : Counter s :=
  h.invariant (counter_init segments E) fun _ _ _ hC _ hs => hC.step hs

/-! ### The wait in `destroy_shm_seg` -/

/-- A call that gives its id back never waits, and the process never ends by an underflow. -/
structure Roomy (segments : ℕ) (s : State κ) : Prop where
  alive : s.exited = false
  max : s.maxFldesQueueSize = segments
  awake : ∀ k w, (s.calls k).pc = .waitRoom w → ¬ w.drowsy

omit [DecidableEq κ] in
/-- A call in `destroy_shm_seg` finds room. -/
theorem room_of_waitRoom {p : Wait} {ok : Bool} {op : MutexOp} {q : Option Wait}
    (hC : Counter s) (hP : Pool.Inv (segmentIds segments) s.pool)
    (hp : (s.calls k).pc = .waitRoom p) (hmax : s.maxFldesQueueSize = segments)
    (hs : p.step .pthread s.fldesMutex.isNone ok = some (op, q)) :
    s.fldesQueueSize ≠ s.maxFldesQueueSize := by
  have hsize := hC.size_of_wait hp (fun _ => rfl) (fun _ _ _ h => h) hs
  have hheld : s.pool.owner k = some (s.calls k).fldes := by
    simp [State.pool, Call.held, CallPc.owns, hp]
  have hlt := hP.length_lt hheld
  simp only [State.pool, length_segmentIds] at hlt
  omega

theorem Roomy.callStep (hC : Counter s) (hP : Pool.Inv (segmentIds segments) s.pool)
    (hR : Roomy segments s) (h : callStep E s k w = some s') :
    s'.exited = false ∧ s'.maxFldesQueueSize = segments ∧
      ∀ v, (s'.calls k).pc = .waitRoom v → ¬ v.drowsy := by
  obtain ⟨halive, hmax, hawake⟩ := hR
  unfold Proxy.callStep at h
  cases hp : (s.calls k).pc with
  | waitSegment p =>
      simp only [hp, State.wait, Option.map_eq_some_iff] at h
      obtain ⟨⟨_, q⟩, _, rfl⟩ := h
      exact ⟨halive, hmax, by cases q <;> simp⟩
  | waitRoom p =>
      simp only [hp, State.wait, Option.map_eq_some_iff] at h
      obtain ⟨⟨_, q⟩, hs, rfl⟩ := h
      refine ⟨halive, hmax, fun v hv hd => ?_⟩
      cases q with
      | none => simp at hv
      | some v' =>
          obtain rfl : v' = v := by simpa using hv
          obtain hdp | hok := Wait.drowsy_of_step hs hd
          · exact hawake k p hp hdp
          · exact room_of_waitRoom hC hP hp hmax hs (by simpa using hok)
  | pop =>
      have hcrit := hC.crit k (by rw [hp]; rfl)
      simp only [hp, CallPc.Crit] at h hcrit
      obtain ⟨hsize, hne⟩ := hcrit
      split at h <;> obtain rfl := Option.some.inj h
      · next hq => simp [hq, hne] at hsize
      · exact ⟨halive, hmax, by simp⟩
  | body =>
      simp only [hp] at h
      split at h
      · obtain rfl := Option.some.inj h
        refine ⟨halive, hmax, fun v hv => ?_⟩
        obtain rfl : Wait.lock = v := by simpa using hv
        exact Bool.false_ne_true
      · obtain ⟨ch, _, rfl⟩ := Option.map_eq_some_iff.mp h
        exact ⟨halive, hmax, by simp⟩
  | _ =>
      simp only [hp, Option.some.injEq] at h
      subst h
      exact ⟨halive, hmax, by simp⟩

theorem Woken.awake {c c' : Call} (h : Woken c c')
    (hc : ∀ w, c.pc = .waitRoom w → ¬ w.drowsy) : ∀ w, c'.pc = .waitRoom w → ¬ w.drowsy := by
  intro w hw hd
  obtain rfl | rfl | rfl := h
  · exact hc w hw hd
  · cases hp : c.pc with
    | waitRoom v =>
        simp only [hp, CallPc.wakeRead, CallPc.waitRoom.injEq] at hw
        exact hc v hp (by rw [hw]; exact hd)
    | _ => simp [hp, CallPc.wakeRead] at hw
  · cases hp : c.pc with
    | waitRoom v =>
        simp only [hp, CallPc.wakeWrite, CallPc.waitRoom.injEq] at hw
        subst hw
        obtain rfl := Wait.eq_sleep_of_wake hd
        exact hc .sleep hp rfl
    | _ => simp [hp, CallPc.wakeWrite] at hw

theorem Roomy.step {a : Act κ} (hC : Counter s) (hP : Pool.Inv (segmentIds segments) s.pool)
    (hR : Roomy segments s) (h : step E s a = some s') : Roomy segments s' := by
  have hframe := step_frame h
  suffices hs : s'.exited = false ∧ s'.maxFldesQueueSize = segments ∧
      ∀ v, (s'.calls a.subject).pc = .waitRoom v → ¬ v.drowsy by
    refine ⟨hs.1, hs.2.1, fun k v => ?_⟩
    rcases eq_or_ne k a.subject with rfl | hk
    · exact hs.2.2 v
    · exact (hframe k hk).awake (hR.awake k) v
  unfold Proxy.step at h
  split at h
  · cases h
  · cases a with
    | call k w => exact hR.callStep hC hP h
    | worker k r =>
        obtain ⟨ch, _, rfl⟩ := Option.map_eq_some_iff.mp h
        exact ⟨hR.alive, hR.max, by simpa [Act.subject] using hR.awake k⟩
    | spuriousCall k =>
        obtain rfl := Option.some.inj h
        have hread : Woken (s.calls k) { s.calls k with pc := (s.calls k).pc.wakeRead } :=
          .inr (.inl rfl)
        have hwrite : Woken { s.calls k with pc := (s.calls k).pc.wakeRead }
            { s.calls k with pc := (s.calls k).pc.wakeRead.wakeWrite } := .inr (.inr rfl)
        exact ⟨hR.alive, hR.max, by simpa [Act.subject] using hwrite.awake (hread.awake (hR.awake k))⟩
    | spuriousWorker k =>
        obtain rfl := Option.some.inj h
        exact ⟨hR.alive, hR.max, by simpa [Act.subject] using hR.awake k⟩

omit [DecidableEq κ] in
theorem roomy_init (segments : ℕ) (E : κ → Channel.Env) : Roomy segments (init segments E) where
  alive := rfl
  max := by simp [init]
  awake := by simp [init]

theorem Reachable.roomy (h : Reachable segments E s) : Roomy segments s := by
  have hJ : ∀ s, Reachable segments E s →
      Counter s ∧ Pool.Inv (segmentIds segments) s.pool := fun _ hr => ⟨hr.counter, hr.pool⟩
  exact h.invariant_of hJ (roomy_init segments E) fun _ _ _ hJ hR _ hs => hR.step hJ.1 hJ.2 hs

/-- **The pool of segments**, in every reachable state: the counter is right and within bounds
outside of the critical sections; the ids in the queue and those of the calls are pairwise
distinct ids of `init_proxy`; `steque_pop` has an id to pop and never ends the process; the wait
in `destroy_shm_seg` finds room whenever it tests, so it never sleeps. -/
theorem segment_pool (segments : ℕ) (E : κ → Channel.Env) (s : State κ)
    (h : Reachable segments E s) :
    (s.fldesMutex = none → s.fldesQueueSize = s.fldesQueue.length ∧ 0 ≤ s.fldesQueueSize ∧
      s.fldesQueueSize ≤ s.maxFldesQueueSize) ∧
    (s.fldesQueue.Nodup ∧ s.fldesQueue ⊆ segmentIds segments) ∧
    (∀ k i, (s.calls k).held = some i → i ∈ segmentIds segments ∧ i ∉ s.fldesQueue ∧
      ∀ l, (s.calls l).held = some i → l = k) ∧
    (s.exited = false ∧ ∀ k, (s.calls k).pc = .pop → s.fldesQueue ≠ []) ∧
    ∀ k w, (s.calls k).pc = .waitRoom w → w ≠ .sleep ∧ w ≠ .asleep ∧
      (w = .test → s.fldesQueueSize ≠ s.maxFldesQueueSize) := by
  have hC := h.counter
  have hP := h.pool
  obtain ⟨halive, hmax, hawake⟩ := h.roomy
  refine ⟨fun hn => ?_, ⟨hP.nodup, hP.free_sub⟩, fun k i hi => ?_, ⟨halive, fun k hk => ?_⟩,
    fun k w hw => ⟨?_, ?_, ?_⟩⟩
  · have hle := hP.length_le
    have hsize := hC.free hn
    simp only [State.pool, length_segmentIds] at hle
    omega
  · exact ⟨hP.owner_mem k i hi, hP.disjoint k i hi, fun l hl => hP.injective l k i hl hi⟩
  · have hcrit := hC.crit k (by rw [hk]; rfl)
    simp only [hk, CallPc.Crit] at hcrit
    intro hnil
    simp [hnil, hcrit.2] at hcrit
  · rintro rfl
    exact hawake k _ hw rfl
  · rintro rfl
    exact hawake k _ hw rfl
  · rintro rfl
    have hs : Wait.test.step .pthread s.fldesMutex.isNone true = some (.keep, none) := rfl
    exact room_of_waitRoom hC hP hw hmax hs

/-- Every call is for the same file of one byte. -/
def oneByteCalls (_ : ℕ) : Channel.Env :=
  ⟨.pthread, Channel.proxyLayout, Channel.cacheLayout, 144, 1024, some [7], Channel.kilobyte_lt⟩

/-- One segment: the first call has popped it, the second call waits. -/
def contendedRun : List (Act ℕ) := List.replicate 7 (.call 0 0) ++ List.replicate 4 (.call 1 0)

def contendedEnd : State ℕ :=
  (exec (step oneByteCalls) (init 1 oneByteCalls) contendedRun).getD (init 1 oneByteCalls)

theorem segment_pool_contended :
    (contendedEnd.fldesMutex = none → contendedEnd.fldesQueueSize = contendedEnd.fldesQueue.length ∧
      0 ≤ contendedEnd.fldesQueueSize ∧
      contendedEnd.fldesQueueSize ≤ contendedEnd.maxFldesQueueSize) ∧
    (contendedEnd.calls 1).pc = .waitSegment .asleep :=
  ⟨(segment_pool 1 oneByteCalls contendedEnd (reach_of_exec contendedRun rfl)).1, by decide +kernel⟩

end OsProjects.Proxy
