import OsProjects.SegmentPool

/-! # What a call gives back

A call of `handle_with_cache` takes three things: a segment id, the mutex of the data area and
the worker that serves it.  A short `gfs_send` makes it return from inside the critical section,
past `destroy_shm_seg`: the id is lost to the pool, the mutex stays locked and the worker is left
with a full slot.  `given_back_iff` says that this is the only way: a call that returns has given
everything back exactly when each of its sends was complete, and once no call is active the pool
holds all its ids again exactly when that is so for every call. -/

namespace OsProjects.Channel

open Monitor Transition

/-- Every `gfs_send` has accepted what it was given. -/
def State.AllSent (s : State) : Prop := ∀ x ∈ s.sends, x.result = x.len

/-- The handler fails at its first short send. -/
def SendLog (s : State) : Prop := s.hpc = .failed ↔ ¬ s.AllSent

section sendLog

variable {E : Env} {s s' : State} {w r : ℤ}

theorem SendLog.of_sends (hS : SendLog s) (hs : s'.sends = s.sends)
    (hp : s'.hpc = .failed ↔ s.hpc = .failed) : SendLog s' := by
  unfold SendLog State.AllSent at *
  rw [hp, hS, hs]

theorem SendLog.handlerStep (hS : SendLog s) (h : handlerStep E s w = some s') : SendLog s' := by
  cases hp : s.hpc with
  | waitLength p | waitChunk p =>
      simp only [Channel.handlerStep, hp, State.waitHandler, Option.map_eq_some_iff] at h
      obtain ⟨⟨_, q⟩, _, rfl⟩ := h
      cases q <;> exact hS.of_sends rfl (by simp [hp])
  | branch =>
      simp only [Channel.handlerStep, hp] at h
      split at h <;> obtain rfl := Option.some.inj h <;> exact hS.of_sends rfl (by simp [hp])
  | loop =>
      simp only [Channel.handlerStep, hp, Option.some.injEq] at h
      subst h
      split <;> exact hS.of_sends rfl (by simp [hp])
  | send =>
      simp only [Channel.handlerStep, hp, State.gfsSend, Option.some.injEq] at h
      have hall : s.AllSent := by
        by_contra hn
        have := hS.mpr hn
        rw [hp] at this
        cases this
      unfold SendLog State.AllSent
      split at h <;> subst h
      · next hw =>
          simp only [true_iff, not_forall]
          exact ⟨_, List.mem_append_right _ List.mem_cons_self, hw⟩
      · next hw =>
          simp only [reduceCtorEq, false_iff, not_not]
          intro x hx
          rcases List.mem_append.mp hx with hx | hx
          · exact hall x hx
          · obtain rfl := List.mem_singleton.mp hx
            simpa using hw
  | reply =>
      simp only [Channel.handlerStep, hp, State.replyWith, Option.some.injEq] at h
      split at h <;> subst h <;> exact hS.of_sends rfl (by simp [hp])
  | returned | failed => simp [Channel.handlerStep, hp] at h
  | _ =>
      simp only [Channel.handlerStep, hp, Option.some.injEq] at h
      subst h
      exact hS.of_sends rfl (by simp [hp])

theorem SendLog.workerStep (hS : SendLog s) (h : workerStep E s r = some s') : SendLog s' := by
  cases hp : s.wpc with
  | waitLength p | waitSlot p =>
      simp only [Channel.workerStep, hp, State.waitWorker, Option.map_eq_some_iff] at h
      obtain ⟨_, _, rfl⟩ := h
      exact hS.of_sends rfl .rfl
  | get | pread =>
      simp only [Channel.workerStep, hp, Option.ite_none_right_eq_some] at h
      obtain ⟨_, h⟩ := h
      obtain rfl := Option.some.inj h
      exact hS.of_sends rfl .rfl
  | branch =>
      simp only [Channel.workerStep, hp] at h
      split at h <;> obtain rfl := Option.some.inj h <;> exact hS.of_sends rfl .rfl
  | broadcastLength | signal =>
      simp only [Channel.workerStep, hp, Option.some.injEq] at h
      subst h
      exact hS.of_sends rfl (by simp)
  | finished | exited => simp [Channel.workerStep, hp] at h
  | _ =>
      simp only [Channel.workerStep, hp, Option.some.injEq] at h
      subst h
      exact hS.of_sends rfl .rfl

theorem Reachable.sendLog {ok : State → Act → Prop} (h : Reachable E ok s) : SendLog s := by
  apply h.invariant (by simp [SendLog, State.AllSent, init])
  intro s a s' hS _ hs
  cases a with
  | handler w => exact hS.handlerStep hs
  | worker r => exact hS.workerStep hs
  | spuriousHandler =>
      obtain rfl := Option.some.inj hs
      exact hS.of_sends rfl (by simp)
  | spuriousWorker =>
      obtain rfl := Option.some.inj hs
      exact hS.of_sends rfl .rfl

/-- A handler that has returned with success leaves an empty slot. -/
theorem Inv.empty_of_returned (hI : Inv E s) (hp : s.hpc = .returned) : s.bytesWritten = 0 := by
  by_contra hne
  have hP := hI.pending hne
  have hH := hI.handler
  simp only [hp, HPc.Ok, State.cleared, HPc.inflight, cond_false] at hH hP
  omega

end sendLog

end OsProjects.Channel

namespace OsProjects.Proxy

open Monitor Transition

variable {κ : Type*} [DecidableEq κ]

/-- A call that has returned has put its id back and counted it, holds no mutex of its segment,
and does not leave its worker waiting for an empty slot. -/
structure GivenBack (c : Call) : Prop where
  enqueued : c.enqueued = [c.fldes]
  counted : c.sizeDelta = 0
  unlocked : ∀ m, c.chan.mutex m ≠ some .proxy
  served : ¬ ∃ w, c.chan.wpc = .waitSlot w ∧ c.chan.bytesWritten ≠ 0

/-- The call has begun and not returned. -/
def Call.Active (c : Call) : Prop := c.pc ≠ .idle ∧ ¬ c.chan.Returned

variable {segments : ℕ} {E : κ → Channel.Env} {s : State κ} {k : κ}

theorem Call.Ok.body_of_returned {c : Call} (hc : c.Ok) (hr : c.chan.Returned) : c.pc = .body := by
  unfold Call.Ok at hc
  unfold Channel.State.Returned at hr
  cases hp : c.pc <;> simp_all

/-- A failed call keeps its id. -/
theorem held_of_failed (h : Reachable segments E s) (hf : (s.calls k).chan.hpc = .failed) :
    (s.calls k).held = some (s.calls k).fldes := by
  have hpc := (h.callOk k).body_of_returned (.inr hf)
  simp [Call.held, CallPc.owns, hpc, hf, released]

theorem givenBack_of_returned (h : Reachable segments E s)
    (hp : (s.calls k).chan.hpc = .returned) : GivenBack (s.calls k) := by
  have hO := h.callOk k
  have hpc := hO.body_of_returned (.inl hp)
  have hch := h.exchanges k
  have hlocks := (Channel.Reachable.locks hch).handler
  unfold Call.Ok at hO
  simp only [hpc, hp, released, if_true] at hO
  rw [hp] at hlocks
  refine ⟨hO.1, hO.2, hlocks.ne_of_none, ?_⟩
  rintro ⟨w, _, hb⟩
  exact hb ((Channel.Reachable.inv hch).empty_of_returned hp)

theorem not_givenBack_of_failed (h : Reachable segments E s)
    (hf : (s.calls k).chan.hpc = .failed) : ¬ GivenBack (s.calls k) := by
  have hO := h.callOk k
  have hpc := hO.body_of_returned (.inr hf)
  unfold Call.Ok at hO
  simp only [hpc, hf, released, Bool.false_eq_true, if_false] at hO
  intro hG
  have henq := hG.enqueued
  rw [hO.1] at henq
  cases henq

/-- While no call is active nobody holds `fldes_mutex`. -/
theorem unlocked_of_inactive (h : Reachable segments E s) (hidle : ∀ k, ¬ (s.calls k).Active) :
    s.fldesMutex = none := by
  have hC := h.counter
  cases hm : s.fldesMutex with
  | none => rfl
  | some k =>
      have hk := (hC.lock k).mp hm
      have hpc : (s.calls k).pc = .idle ∨ (s.calls k).pc = .body := by
        by_cases hi : (s.calls k).pc = .idle
        · exact .inl hi
        · refine .inr ((h.callOk k).body_of_returned ?_)
          by_contra hr
          exact hidle k ⟨hi, hr⟩
      obtain hpc | hpc := hpc <;> simp [hpc, CallPc.holds] at hk

theorem full_iff_of_inactive (h : Reachable segments E s) (hidle : ∀ k, ¬ (s.calls k).Active) :
    (s.fldesQueue.Perm (segmentIds segments) ∧ s.fldesQueueSize = segments) ↔
      ∀ k, (s.calls k).chan.AllSent := by
  have hP := h.pool
  have hsize := h.counter.free (unlocked_of_inactive h hidle)
  have hlog := fun k => Channel.Reachable.sendLog (h.exchanges k)
  constructor
  · rintro ⟨hperm, -⟩ k
    by_contra hn
    have hlt := hP.length_lt (show s.pool.owner k = _ from held_of_failed h ((hlog k).mpr hn))
    have hlen := hperm.length_eq
    simp only [State.pool] at hlt
    omega
  · intro hall
    have hnone : ∀ k, s.pool.owner k = none := by
      intro k
      show (s.calls k).held = none
      by_cases hi : (s.calls k).pc = .idle
      · simp [Call.held, CallPc.owns, hi]
      · have hr : (s.calls k).chan.Returned := by
          by_contra hr
          exact hidle k ⟨hi, hr⟩
        have hpc := (h.callOk k).body_of_returned hr
        obtain hp | hp := hr
        · simp [Call.held, CallPc.owns, hpc, hp, released]
        · exact absurd (hall k) ((hlog k).mp hp)
    have hperm := hP.perm (segmentIds_nodup segments) hnone
    have hlen := hperm.length_eq
    simp only [State.pool, length_segmentIds] at hlen
    exact ⟨hperm, by omega⟩

/-- **What a call gives back.**  A call that has returned has given back its id, its mutex and
its worker exactly when each of its sends was complete; with no call active, the pool holds all
its ids again exactly when that is so for every call. -/
theorem given_back_iff (segments : ℕ) (E : κ → Channel.Env) (s : State κ)
    (h : Reachable segments E s) :
    (∀ k, (s.calls k).chan.Returned → (GivenBack (s.calls k) ↔ (s.calls k).chan.AllSent)) ∧
    ((∀ k, ¬ (s.calls k).Active) →
      ((s.fldesQueue.Perm (segmentIds segments) ∧ s.fldesQueueSize = segments) ↔
        ∀ k, (s.calls k).chan.AllSent)) := by
  refine ⟨fun k hr => ?_, full_iff_of_inactive h⟩
  have hlog := Channel.Reachable.sendLog (h.exchanges k)
  obtain hp | hp := hr
  · have hall : (s.calls k).chan.AllSent := by
      by_contra hn
      have hf := hlog.mpr hn
      rw [hp] at hf
      cases hf
    exact iff_of_true (givenBack_of_returned h hp) hall
  · exact iff_of_false (not_givenBack_of_failed h hp) (hlog.mp hp)

/-- One segment, one call, and a client that accepts nothing. -/
def shortSendRun : List (Act ℕ) :=
  List.replicate 10 (.call 0 0) ++ List.replicate 19 (.worker 0 1) ++ List.replicate 11 (.call 0 0)

def shortSendEnd : State ℕ :=
  (exec (step oneByteCalls) (init 1 oneByteCalls) shortSendRun).getD (init 1 oneByteCalls)

theorem given_back_iff_shortSend :
    (shortSendEnd.calls 0).chan.Returned ∧
      (GivenBack (shortSendEnd.calls 0) ↔ (shortSendEnd.calls 0).chan.AllSent) :=
  ⟨.inr (by decide +kernel),
    (given_back_iff 1 oneByteCalls shortSendEnd (reach_of_exec shortSendRun rfl)).1 0
      (.inr (by decide +kernel))⟩

theorem not_given_back_shortSend :
    ¬ ∀ s, Reachable 1 oneByteCalls s → ∀ k, (s.calls k).chan.Returned → GivenBack (s.calls k) := by
  intro h
  have hr : Reachable 1 oneByteCalls shortSendEnd := reach_of_exec shortSendRun rfl
  have hf : (shortSendEnd.calls 0).chan.hpc = .failed := by decide +kernel
  exact not_givenBack_of_failed hr hf (h shortSendEnd hr 0 (.inr hf))

end OsProjects.Proxy
