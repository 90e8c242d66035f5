import OsProjects.SegmentReuse

/-! # The shutdown of the proxy

`_proxy_sig_handler` of `proj3/webproxy.c` takes the ids out of `fldes_queue` one by one, unlinks
each, and ends the process.  It runs beside the calls and the workers of the shared memory model:
the signal stops no thread, and until `exit` every one of them can move between two steps of the
handler.  The thread that the signal interrupts is one that does not.

* The operations of `steque` are single steps; the handler does not take `fldes_mutex`.
* One signal arrives.  `gfserver_stop` leaves the pool alone.

`shutdown_iff` says when no name is left where no call takes an id while the handler runs: when no
call has one as the signal arrives, from `steque_pop` to `shm_unlink` of `destroy_shm_seg`. -/

namespace OsProjects.SharedMemory

open Transition

variable {κ ω : Type*} {segments : ℕ} {E : κ → Channel.Env} {s s' : State κ ω} {k : κ} {w : ℤ}

/-! ### The handler beside the threads -/

/-- `SIGINT`. -/
def sigInt : ℤ := 2

/-- `SIGTERM`. -/
def sigTerm : ℤ := 15

/-- Program points of `_proxy_sig_handler`. -/
inductive SigPc where
  | stop                        -- gfserver_stop(&gfs)
  | size                        -- size = steque_size(&fldes_queue)
  | loop (left : ℕ)             -- i < size, and then temp = steque_pop(&fldes_queue)
  | unlink (left : ℕ) (temp : List Byte)
  | destroy                     -- steque_destroy(&fldes_queue), free(segment_id)
  | exit
deriving DecidableEq, Repr

/-- The proxy and the workers, and the handler once the signal has arrived. -/
structure Shutdown (κ ω : Type*) where
  shared : State κ ω
  handler : Option SigPc

/-- `fldes_queue` changes. -/
def State.setQueue (s : State κ ω) (queue : List (List Byte)) : State κ ω :=
  { s with proxy := { s.proxy with fldesQueue := queue } }

/-- The process ends. -/
def State.exit (s : State κ ω) : State κ ω := { s with proxy := { s.proxy with exited := true } }

/-- One step of `_proxy_sig_handler`. -/
def proxySigHandler (s : State κ ω) : SigPc → Shutdown κ ω
  | .stop => ⟨s, some .size⟩
  | .size => ⟨s, some (.loop s.proxy.fldesQueue.length)⟩
  | .loop 0 => ⟨s, some .destroy⟩
  | .loop (left + 1) =>
      match s.proxy.fldesQueue with
      | [] => ⟨s.exit, none⟩
      | temp :: queue => ⟨s.setQueue queue, some (.unlink left temp)⟩
  | .unlink left temp =>
      ⟨{ s with names := Function.update s.names temp none }, some (.loop left)⟩
  | .destroy => ⟨s.setQueue [], some .exit⟩
  | .exit => ⟨s.exit, none⟩

/-- Who moves. -/
inductive ShutdownAct (κ ω : Type*) where
  | thread (a : Act κ ω)
  | signal (signo : ℤ)
  | handler

/-- The call has taken an id and has not unlinked its name. -/
def hasId (st : Stage) : Proxy.CallPc → Bool
  | .decrement | .unlockPop | .broadcastWrite => true
  | .body => st ≠ .unlinked
  | _ => false

def State.hasId (s : State κ ω) (k : κ) : Bool :=
  SharedMemory.hasId (s.stage k) (s.proxy.calls k).pc

/-- The step is not the `steque_pop` of a call. -/
def Act.TakesNone (s : State κ ω) : Act κ ω → Prop
  | .call k _ => (s.proxy.calls k).pc ≠ .pop
  | _ => True

/-- No call takes an id. -/
def TakesNone (t : Shutdown κ ω) : ShutdownAct κ ω → Prop
  | .thread a => a.TakesNone t.shared
  | _ => True

variable [DecidableEq κ] [DecidableEq ω]

/-- One step of the proxy, the workers and the handler. -/
def shutdownStep (E : κ → Channel.Env) (t : Shutdown κ ω) :
    ShutdownAct κ ω → Option (Shutdown κ ω)
  | .thread a => (step E t.shared a).map fun s => { t with shared := s }
  | .signal signo =>
      if t.shared.proxy.exited ∨ t.handler.isSome then none
      else if signo = sigInt ∨ signo = sigTerm then some { t with handler := some .stop }
      else some t
  | .handler =>
      if t.shared.proxy.exited then none else t.handler.map (proxySigHandler t.shared)

/-! ### Without an id no call makes a segment -/

omit [DecidableEq κ] [DecidableEq ω] in
@[simp] theorem hasId_wakeRead (st : Stage) (p : Proxy.CallPc) :
    hasId st p.wakeRead = hasId st p := by
  cases p <;> rfl

omit [DecidableEq κ] [DecidableEq ω] in
@[simp] theorem hasId_wakeWrite (st : Stage) (p : Proxy.CallPc) :
    hasId st p.wakeWrite = hasId st p := by
  cases p <;> rfl

/-- The call is at a point between its `munmap` and its answer. -/
def returning : Proxy.CallPc → Bool
  | .waitRoom _ | .enqueue | .increment | .unlockPut | .broadcastRead => true
  | _ => false

omit [DecidableEq κ] [DecidableEq ω] in
@[simp] theorem returning_wakeRead (p : Proxy.CallPc) : returning p.wakeRead = returning p := by
  cases p <;> rfl

omit [DecidableEq κ] [DecidableEq ω] in
@[simp] theorem returning_wakeWrite (p : Proxy.CallPc) : returning p.wakeWrite = returning p := by
  cases p <;> rfl

/-- The call has no id, and if it gives one back it has unlinked its name. -/
structure Settled (st : Stage) (p : Proxy.CallPc) : Prop where
  free : hasId st p = false
  unlinked : returning p = true → st = .unlinked

omit [DecidableEq κ] [DecidableEq ω] in
theorem Settled.woken {st : Stage} {c c' : Proxy.Call} (h : Settled st c.pc)
    (hw : Proxy.Woken c c') : Settled st c'.pc := by
  obtain ⟨hfree, hunl⟩ := h
  obtain rfl | rfl | rfl := hw
  · exact ⟨hfree, hunl⟩
  · exact ⟨by simpa using hfree, by simpa using hunl⟩
  · exact ⟨by simpa using hfree, by simpa using hunl⟩

/-- No name is bound, and no call has an id. -/
structure Removed (s : State κ ω) : Prop where
  gone : ∀ n, s.names n = none
  settled : ∀ k, Settled (s.stage k) (s.proxy.calls k).pc

omit [DecidableEq κ] [DecidableEq ω] in
theorem Removed.congr (h : Removed s) (hnames : s'.names = s.names) (hstage : s'.stage = s.stage)
    (hpc : ∀ k, (s'.proxy.calls k).pc = (s.proxy.calls k).pc) : Removed s' where
  gone n := by rw [hnames, h.gone]
  settled k := by
    rw [hstage, hpc]
    exact h.settled k

omit [DecidableEq ω] in
theorem Removed.callStep (h : Removed s) (hpop : (s.proxy.calls k).pc ≠ .pop)
    (hs : callStep E s k w = some s') : Removed s' := by
  have hk := h.settled k
  unfold SharedMemory.callStep at hs
  dsimp only at hs
  rw [if_neg] at hs
  swap
  · rintro ⟨hp, hst⟩
    have hfree := hk.free
    simp [hp, hasId, hst] at hfree
  obtain ⟨p, hstep, rfl⟩ := Option.map_eq_some_iff.mp hs
  refine ⟨h.gone, fun j => ?_⟩
  rcases eq_or_ne j k with rfl | hj
  swap
  · exact (h.settled j).woken (Proxy.callStep_frame hstep j hj)
  obtain ⟨hfree, hunl⟩ := hk
  unfold Proxy.callStep at hstep
  dsimp only
  cases hp : (s.proxy.calls j).pc with
  | pop => exact absurd hp hpop
  | decrement | unlockPop | broadcastWrite => simp [hp, hasId] at hfree
  | waitSegment v | waitRoom v =>
      simp only [hp, Proxy.State.wait, Option.map_eq_some_iff] at hstep
      obtain ⟨⟨_, q⟩, _, rfl⟩ := hstep
      rw [hp] at hunl
      cases q <;> constructor <;> simp_all [hasId, returning]
  | body =>
      have hst : s.stage j = .unlinked := by simpa [hp, hasId] using hfree
      simp only [hp] at hstep
      split at hstep
      · obtain rfl := Option.some.inj hstep
        constructor <;> simp [hasId, hst]
      · obtain ⟨ch, _, rfl⟩ := Option.map_eq_some_iff.mp hstep
        constructor <;> simp [hasId, hst]
  | _ =>
      simp only [hp, Option.some.injEq] at hstep
      subst hstep
      constructor <;> simp_all [hasId, returning]

omit [DecidableEq ω] in
theorem Removed.serve {o : ℕ} {r : ℤ} (h : Removed s) (hs : s.serve E k o r = some s') :
    Removed s' := by
  unfold State.serve at hs
  obtain ⟨ch, _, rfl⟩ := Option.map_eq_some_iff.mp hs
  have hset : ∀ c : Proxy.Call, c.pc = (s.proxy.calls k).pc → ∀ j,
      ((s.proxy.setCall k c).calls j).pc = (s.proxy.calls j).pc := by
    intro c hc j
    rcases eq_or_ne j k with rfl | hj
    · rw [Proxy.setCall_self, hc]
    · rw [Proxy.setCall_of_ne _ _ _ hj]
  dsimp only
  split
  · exact h.congr rfl rfl (hset _ rfl)
  · exact h.congr rfl rfl (hset _ rfl)

/-- **A thread that takes no id binds no name.** -/
theorem Removed.step {a : Act κ ω} (h : Removed s) (ha : a.TakesNone s)
    (hs : step E s a = some s') : Removed s' := by
  have hset : ∀ (k : κ) (c : Proxy.Call), Settled (s.stage k) c.pc →
      Removed { s with proxy := s.proxy.setCall k c } := by
    intro k c hc
    refine ⟨h.gone, fun j => ?_⟩
    rcases eq_or_ne j k with rfl | hj
    · simpa using hc
    · simpa [Proxy.setCall_of_ne _ _ _ hj] using h.settled j
  unfold SharedMemory.step at hs
  split at hs
  · cases hs
  cases a with
  | call k w => exact h.callStep ha hs
  | receive i n =>
      dsimp only at hs
      split at hs
      · obtain rfl := Option.some.inj hs
        exact h.congr rfl rfl fun _ => rfl
      · cases hs
  | worker i r =>
      simp only [SharedMemory.workerStep] at hs
      obtain ⟨m, _, hs⟩ := Option.bind_eq_some_iff.mp hs
      split at hs
      · obtain ⟨ch, _, rfl⟩ := Option.map_eq_some_iff.mp hs
        exact hset _ _ (h.settled m.sender)
      · split at hs
        · split at hs <;> obtain rfl := Option.some.inj hs
          · exact h
          · exact h.congr rfl rfl fun _ => rfl
        · split at hs
          · obtain rfl := Option.some.inj hs
            exact h.congr rfl rfl fun _ => rfl
          · exact h.serve hs
  | spuriousCall k =>
      obtain rfl := Option.some.inj hs
      obtain ⟨hfree, hunl⟩ := h.settled k
      exact hset k _ ⟨by simpa using hfree, by simpa using hunl⟩
  | spuriousWorker k =>
      obtain rfl := Option.some.inj hs
      exact hset k _ (h.settled k)

omit [DecidableEq κ] [DecidableEq ω] in
theorem Removed.proxySigHandler (h : Removed s) (p : SigPc) :
    Removed (proxySigHandler s p).shared := by
  cases p with
  | loop left =>
      cases left with
      | zero => exact h
      | succ left =>
          simp only [SharedMemory.proxySigHandler]
          split <;> exact h.congr rfl rfl fun _ => rfl
  | unlink left temp =>
      refine ⟨fun n => ?_, h.settled⟩
      simp only [SharedMemory.proxySigHandler, Function.update_apply, h.gone]
      split <;> rfl
  | _ => exact h.congr rfl rfl fun _ => rfl

theorem Removed.shutdownStep {t t' : Shutdown κ ω} {a : ShutdownAct κ ω} (h : Removed t.shared)
    (ha : TakesNone t a) (hs : shutdownStep E t a = some t') : Removed t'.shared := by
  cases a with
  | thread a =>
      obtain ⟨s', hs', rfl⟩ := Option.map_eq_some_iff.mp hs
      exact h.step ha hs'
  | signal signo =>
      simp only [SharedMemory.shutdownStep] at hs
      split at hs
      · cases hs
      · split at hs <;> obtain rfl := Option.some.inj hs <;> exact h
  | handler =>
      simp only [SharedMemory.shutdownStep] at hs
      split at hs
      · cases hs
      · obtain ⟨p, _, rfl⟩ := Option.map_eq_some_iff.mp hs
        exact h.proxySigHandler p

/-! ### When the signal arrives -/

omit [DecidableEq κ] [DecidableEq ω] in
/-- A segment that a call has created and not unlinked has an object behind its name. -/
theorem names_of_binds (hN : Names s) (hk : (s.stage k).binds = true) :
    s.names (s.proxy.calls k).fldes ≠ none := by
  rw [hN.binds k hk]
  have hstage := hN.stage k
  cases hs : s.stage k with
  | mapped | unlink =>
      rw [hs] at hstage
      exact hstage.1
  | _ => simp [hs, Stage.binds] at hk

omit [DecidableEq ω] in
/-- The id of a segment that exists is not in the queue. -/
theorem not_mem_of_binds (hN : Names s) (hR : Proxy.Reachable segments E (s.view E))
    (hk : (s.stage k).binds = true) : (s.proxy.calls k).fldes ∉ s.proxy.fldesQueue := by
  obtain ⟨hbody, hrel⟩ := (hN.stage k).body hk
  exact hR.pool.disjoint k _ (owner_of_body hbody hrel)

omit [DecidableEq ω] in
/-- A call that is giving its id back has unlinked its name. -/
theorem unlinked_of_returning (hN : Names s) (hR : Proxy.Reachable segments E (s.view E))
    (hk : returning (s.proxy.calls k).pc = true) : s.stage k = .unlinked := by
  have hO := hR.callOk k
  have hstage := hN.stage k
  have hrelease : (s.proxy.calls k).chan.hpc = .release := by
    unfold Proxy.Call.Ok at hO
    have hpc : ((s.view E).calls k).pc = (s.proxy.calls k).pc := rfl
    rw [hpc] at hO
    cases hp : (s.proxy.calls k).pc with
    | waitRoom v | enqueue | increment | unlockPut | broadcastRead =>
        rw [hp] at hO
        exact hO.1
    | _ => simp [hp, returning] at hk
  cases hs : s.stage k with
  | unlinked => rfl
  | unlinkOld =>
      rw [hs, hrelease] at hstage
      cases hstage.2
  | create =>
      rw [hs, hrelease] at hstage
      cases hstage.2.1
  | mapped | unlink =>
      rw [hs] at hstage
      rw [hstage.2.1] at hk
      cases hk

theorem removed_of_free (h : Reachable segments E s) (hfree : ∀ k, s.hasId k = false) :
    Removed s := by
  obtain ⟨hN, hR⟩ := Reachable.names h
  refine ⟨fun n => ?_, fun k => ⟨hfree k, unlinked_of_returning hN hR⟩⟩
  cases hn : s.names n with
  | none => rfl
  | some o =>
      obtain ⟨k, hk, _, _⟩ := hN.bound n o hn
      obtain ⟨hbody, _⟩ := (hN.stage k).body hk
      have hkfree := hfree k
      rw [State.hasId, hbody] at hkfree
      cases hs : s.stage k <;> simp_all [hasId, Stage.binds]

/-! ### A call that has an id -/

/-- The threads can go on from here, without taking an id, to where call `k` has a segment. -/
def CanCreate (E : κ → Channel.Env) (s : State κ ω) (k : κ) : Prop :=
  ∃ s', Reach (step E) (fun s a => a.TakesNone s) s s' ∧ (s'.stage k).binds = true

theorem canCreate_of_step (halive : s.proxy.exited = false) (hp : (s.proxy.calls k).pc ≠ .pop)
    (hs : callStep E s k 0 = some s') (h : CanCreate E s' k) : CanCreate E s k := by
  obtain ⟨s'', hreach, hk⟩ := h
  have hstep : step E s (.call k 0) = some s' := by simpa [step, halive] using hs
  have hnone : (Act.call k 0 : Act κ ω).TakesNone s := hp
  exact ⟨s'', (Reach.single hnone hstep).trans hreach, hk⟩

/-- A call in the pool goes on there to program point `q`. -/
theorem canCreate_of_pool {q : Proxy.CallPc} (halive : s.proxy.exited = false)
    (hp : (s.proxy.calls k).pc ≠ .pop) (hb : (s.proxy.calls k).pc ≠ .body)
    (hs : ∃ p, Proxy.callStep E s.proxy k 0 = some p ∧ p.exited = s.proxy.exited ∧
      (p.calls k).pc = q)
    (h : ∀ s' : State κ ω, s'.proxy.exited = false → (s'.proxy.calls k).pc = q →
      s'.stage k = s.stage k → CanCreate E s' k) : CanCreate E s k := by
  obtain ⟨p, hstep, hexited, hq⟩ := hs
  have hnext : callStep E s k 0 = some { s with proxy := p } := by
    unfold callStep
    dsimp only
    rw [if_neg (by simp [hb]), hstep]
    rfl
  exact canCreate_of_step halive hp hnext (h _ (hexited.trans halive) hq rfl)

theorem canCreate_of_create (halive : s.proxy.exited = false)
    (hb : (s.proxy.calls k).pc = .body) (hst : s.stage k = .create)
    (hfree : s.names (s.proxy.calls k).fldes = none) : CanCreate E s k := by
  have hs : ∃ s', callStep E s k 0 = some s' ∧ s'.stage k = .mapped := by
    unfold callStep
    simp [hb, hst, hfree]
  obtain ⟨s', hs, hmapped⟩ := hs
  exact canCreate_of_step halive (by simp [hb]) hs ⟨s', .refl, by rw [hmapped]; rfl⟩

theorem canCreate_of_unlinkOld (halive : s.proxy.exited = false)
    (hb : (s.proxy.calls k).pc = .body) (hst : s.stage k = .unlinkOld) : CanCreate E s k := by
  have hs : ∃ s', callStep E s k 0 = some s' ∧ s'.proxy = s.proxy ∧ s'.stage k = .create ∧
      s'.names (s.proxy.calls k).fldes = none := by
    unfold callStep
    simp [hb, hst]
  obtain ⟨s', hs, hproxy, hcreate, hnone⟩ := hs
  rw [← hproxy] at hnone
  refine canCreate_of_step halive (by simp [hb]) hs (canCreate_of_create ?_ ?_ hcreate hnone)
  · rw [hproxy, halive]
  · rw [hproxy, hb]

/-- The three steps from `steque_pop` to `create_shm_channel`. -/
theorem canCreate_of_popped (halive : s.proxy.exited = false)
    (hp : (s.proxy.calls k).pc = .decrement ∨ (s.proxy.calls k).pc = .unlockPop ∨
      (s.proxy.calls k).pc = .broadcastWrite) (hst : s.stage k = .unlinkOld) :
    CanCreate E s k := by
  have hwrite : ∀ s : State κ ω, s.proxy.exited = false →
      (s.proxy.calls k).pc = .broadcastWrite → s.stage k = .unlinkOld → CanCreate E s k := by
    intro s halive hp hst
    refine canCreate_of_pool (q := .body) halive (by simp [hp]) (by simp [hp]) ?_
      fun s' halive hq hs => canCreate_of_unlinkOld halive hq (hs.trans hst)
    unfold Proxy.callStep
    simp [hp, Proxy.State.setCall, Proxy.State.wakeAll]
  have hunlock : ∀ s : State κ ω, s.proxy.exited = false →
      (s.proxy.calls k).pc = .unlockPop → s.stage k = .unlinkOld → CanCreate E s k := by
    intro s halive hp hst
    refine canCreate_of_pool (q := .broadcastWrite) halive (by simp [hp]) (by simp [hp]) ?_
      fun s' halive hq hs => hwrite s' halive hq (hs.trans hst)
    unfold Proxy.callStep
    simp [hp, Proxy.State.setCall]
  rcases hp with hp | hp | hp
  · refine canCreate_of_pool (q := .unlockPop) halive (by simp [hp]) (by simp [hp]) ?_
      fun s' halive hq hs => hunlock s' halive hq (hs.trans hst)
    unfold Proxy.callStep
    simp [hp, Proxy.State.setCall]
  · exact hunlock s halive hp hst
  · exact hwrite s halive hp hst

/-- **A call that has an id can make a segment behind the handler's back.** -/
theorem canCreate_of_hasId (h : Reachable segments E s) (halive : s.proxy.exited = false)
    (hk : s.hasId k = true) : CanCreate E s k := by
  obtain ⟨hN, hR⟩ := Reachable.names h
  have hO := hR.callOk k
  have hstage := hN.stage k
  have hpc : ((s.view E).calls k).pc = (s.proxy.calls k).pc := rfl
  unfold Proxy.Call.Ok at hO
  rw [hpc] at hO
  -- before the exchange the stage is the first one
  have hold : ((s.proxy.calls k).chan.hpc = .createLength) → (s.proxy.calls k).pc ≠ .body →
      s.stage k = .unlinkOld := by
    intro hhpc hb
    cases hs : s.stage k with
    | unlinkOld => rfl
    | create =>
        rw [hs] at hstage
        exact absurd hstage.2.2 hb
    | mapped | unlink =>
        rw [hs] at hstage
        exact absurd hstage.2.1 hb
    | unlinked =>
        rw [hs, hhpc] at hstage
        simp [Stage.Ok, Proxy.released] at hstage
  unfold State.hasId at hk
  cases hp : (s.proxy.calls k).pc with
  | decrement =>
      rw [hp] at hO
      exact canCreate_of_popped halive (.inl hp) (hold hO.1 (by simp [hp]))
  | unlockPop =>
      rw [hp] at hO
      exact canCreate_of_popped halive (.inr (.inl hp)) (hold hO.1 (by simp [hp]))
  | broadcastWrite =>
      rw [hp] at hO
      exact canCreate_of_popped halive (.inr (.inr hp)) (hold hO.1 (by simp [hp]))
  | body =>
      cases hs : s.stage k with
      | unlinkOld => exact canCreate_of_unlinkOld halive hp hs
      | create => exact canCreate_of_create halive hp hs (names_free hN hR hp hs)
      | mapped | unlink => exact ⟨s, .refl, by rw [hs]; rfl⟩
      | unlinked => simp [hp, hs, hasId] at hk
  | _ => simp [hp, hasId] at hk

/-! ### The handler on its own -/

/-- From here the handler can end the process, with name `n` as it is. -/
def CanEnd (E : κ → Channel.Env) (n : List Byte) (s : State κ ω) (p : SigPc) : Prop :=
  ∃ t, Reach (shutdownStep E) TakesNone ⟨s, some p⟩ t ∧ t.shared.proxy.exited = true ∧
    t.shared.names n = s.names n

theorem canEnd_of_step {n : List Byte} {p p' : SigPc} (halive : s.proxy.exited = false)
    (hs : proxySigHandler s p = ⟨s', some p'⟩) (hnames : s'.names n = s.names n)
    (h : CanEnd E n s' p') : CanEnd E n s p := by
  obtain ⟨t, hreach, hexit, hleft⟩ := h
  have hstep : shutdownStep E ⟨s, some p⟩ .handler = some ⟨s', some p'⟩ := by
    simp [shutdownStep, halive, hs]
  have hnone : TakesNone ⟨s, some p⟩ (.handler : ShutdownAct κ ω) := trivial
  exact ⟨t, (Reach.single hnone hstep).trans hreach, hexit, hleft.trans hnames⟩

theorem canEnd_exit {n : List Byte} (halive : s.proxy.exited = false) : CanEnd E n s .exit := by
  have hstep : shutdownStep E ⟨s, some .exit⟩ .handler = some ⟨s.exit, none⟩ := by
    simp [shutdownStep, halive, proxySigHandler]
  have hnone : TakesNone ⟨s, some .exit⟩ (.handler : ShutdownAct κ ω) := trivial
  exact ⟨⟨s.exit, none⟩, Reach.single hnone hstep, rfl, rfl⟩

/-- The loop leaves the names alone that are not in the queue. -/
theorem canEnd_loop {n : List Byte} {left : ℕ} (halive : s.proxy.exited = false)
    (hleft : left ≤ s.proxy.fldesQueue.length) (hn : n ∉ s.proxy.fldesQueue) :
    CanEnd E n s (.loop left) := by
  induction left generalizing s with
  | zero =>
      have hexit : CanEnd E n (s.setQueue []) .exit := canEnd_exit halive
      have hdestroy : CanEnd E n s .destroy := by
        refine canEnd_of_step halive ?_ ?_ hexit <;> rfl
      exact canEnd_of_step halive rfl rfl hdestroy
  | succ left ih =>
      cases hq : s.proxy.fldesQueue with
      | nil => simp [hq] at hleft
      | cons temp queue =>
          rw [hq, List.mem_cons, not_or] at hn
          rw [hq, List.length_cons] at hleft
          have hunlink : CanEnd E n (s.setQueue queue) (.unlink left temp) := by
            refine canEnd_of_step halive rfl ?_ (ih halive (Nat.le_of_succ_le_succ hleft) hn.2)
            exact Function.update_of_ne hn.1 none s.names
          have hpop : proxySigHandler s (.loop (left + 1)) =
              ⟨s.setQueue queue, some (.unlink left temp)⟩ := by
            simp [proxySigHandler, hq]
          exact canEnd_of_step halive hpop rfl hunlink

theorem canEnd_stop {n : List Byte} (halive : s.proxy.exited = false)
    (hn : n ∉ s.proxy.fldesQueue) : CanEnd E n s .stop := by
  have hsize : CanEnd E n s .size :=
    canEnd_of_step halive rfl rfl (canEnd_loop halive le_rfl hn)
  exact canEnd_of_step halive rfl rfl hsize

/-! ### The shutdown -/

theorem reach_thread {p : SigPc} (h : Reach (step E) (fun s a => a.TakesNone s) s s') :
    Reach (shutdownStep E) TakesNone ⟨s, some p⟩ ⟨s', some p⟩ := by
  refine h.map (fun s => (⟨s, some p⟩ : Shutdown κ ω)) fun s₁ a s₂ _ ha hs => ?_
  have hstep : shutdownStep E ⟨s₁, some p⟩ (.thread a) = some ⟨s₂, some p⟩ := by
    simp [shutdownStep, hs]
  have hnone : TakesNone ⟨s₁, some p⟩ (.thread a) := ha
  exact Reach.single hnone hstep

/-- **When the shutdown removes every segment.**  The signal arrives in a state that the proxy and
the workers can reach, and no call takes an id while the handler runs: whatever the order of the
steps, the process ends with no name left if and only if no call had an id when the signal
arrived. -/
theorem shutdown_iff (segments : ℕ) (E : κ → Channel.Env) (s : State κ ω) (signo : ℤ)
    (t : Shutdown κ ω) (h : Reachable segments E s) (hsig : signo = sigInt ∨ signo = sigTerm)
    (ht : shutdownStep E ⟨s, none⟩ (.signal signo) = some t) :
    (∀ t', Reach (shutdownStep E) TakesNone t t' → t'.shared.proxy.exited = true →
      ∀ n, t'.shared.names n = none) ↔ ∀ k, s.hasId k = false := by
  obtain ⟨halive, rfl⟩ : s.proxy.exited = false ∧ t = ⟨s, some .stop⟩ := by
    simp only [shutdownStep, if_pos hsig] at ht
    split at ht
    · cases ht
    · next hexit =>
        obtain rfl := Option.some.inj ht
        simpa using hexit
  constructor
  · intro hgone k
    by_contra hk
    obtain ⟨s', hreach, hbinds⟩ := canCreate_of_hasId h halive (Bool.not_eq_false _ ▸ hk)
    have hs' : Reachable segments E s' := h.trans (hreach.imp fun _ _ _ _ => trivial)
    obtain ⟨hN, hR⟩ := Reachable.names hs'
    have halive' : s'.proxy.exited = false := hR.roomy.alive
    obtain ⟨t', hend, hexit, hleft⟩ := canEnd_stop (E := E) halive' (not_mem_of_binds hN hR hbinds)
    refine names_of_binds hN hbinds ?_
    rw [← hleft]
    exact hgone t' ((reach_thread hreach).trans hend) hexit _
  · intro hfree t' hreach _
    have hremoved : Removed t'.shared :=
      hreach.invariant (I := fun t => Removed t.shared) (removed_of_free h hfree)
        fun _ _ _ hI ha hs => hI.shutdownStep ha hs
    exact hremoved.gone

/-- One call, for a file that the cache does not have. -/
def missingFile (_ : Unit) : Channel.Env := missingFiles 0

/-- The call has given its segment back. -/
def returnedRun : List (Act Unit Unit) :=
  List.replicate 12 (.call () 0) ++ .receive () 0 :: List.replicate 7 (.worker () 0) ++
    List.replicate 18 (.call () 0)

def returnedEnd : State Unit Unit :=
  (exec (step missingFile) (init 1 missingFile) returnedRun).getD (init 1 missingFile)

theorem shutdown_iff_returned :
    (∃ t, Reach (shutdownStep missingFile) TakesNone ⟨returnedEnd, some .stop⟩ t ∧
      t.shared.proxy.exited = true) ∧
    ∀ t, Reach (shutdownStep missingFile) TakesNone ⟨returnedEnd, some .stop⟩ t →
      t.shared.proxy.exited = true → ∀ n, t.shared.names n = none := by
  have hreach : Reachable 1 missingFile returnedEnd := reach_of_isSome returnedRun (by decide +kernel)
  have halive : returnedEnd.proxy.exited = false := by decide +kernel
  have hfree : returnedEnd.hasId () = false := by decide +kernel
  have hsignal : shutdownStep missingFile ⟨returnedEnd, none⟩ (.signal sigTerm) =
      some ⟨returnedEnd, some .stop⟩ := by
    simp [shutdownStep, halive]
  obtain ⟨t, ht, hexit, _⟩ := canEnd_stop (E := missingFile) (n := []) halive (by decide +kernel)
  exact ⟨⟨t, ht, hexit⟩, (shutdown_iff 1 missingFile returnedEnd sigTerm _ hreach (.inr rfl)
    hsignal).mpr fun _ => hfree⟩

/-- The signal arrives when the call has created its segment and is about to send its message. -/
def leavingRun : List (ShutdownAct Unit Unit) :=
  List.replicate 11 (.thread (.call () 0)) ++ .signal sigTerm :: List.replicate 5 .handler

def leavingEnd : Shutdown Unit Unit :=
  (exec (shutdownStep missingFile) ⟨init 1 missingFile, none⟩ leavingRun).getD
    ⟨init 1 missingFile, none⟩

/-- The handler does not know the ids of the calls. -/
theorem shutdown_leaves :
    Reach (shutdownStep missingFile) Any ⟨init 1 missingFile, none⟩ leavingEnd ∧
      leavingEnd.shared.proxy.exited = true ∧
      leavingEnd.shared.names (Proxy.segmentId 0) = some 0 :=
  ⟨reach_of_isSome leavingRun (by decide +kernel), by decide +kernel, by decide +kernel⟩

end OsProjects.SharedMemory
