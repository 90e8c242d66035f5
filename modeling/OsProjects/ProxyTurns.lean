import OsProjects.SegmentReuse

/-! # The turns of the whole proxy

What a step of the shared memory model is for the proxy of `Proxy.lean`, with its label: either
the step that the action makes there (`Act.below`), or one that is not seen there, in the stages of
a call or in the hands of a worker (`Turn`, `turn_step`).  A message enters the queue where its call
is marked as sent, and nowhere else (`Posts`). -/

namespace OsProjects.SharedMemory

open Transition

variable {κ ω : Type*} [DecidableEq κ]
variable {segments : ℕ} {E : κ → Channel.Env} {s s' : State κ ω} {k : κ} {w r : ℤ}

/-- The step of the proxy of `Proxy.lean` that an action makes, if it makes one. -/
def Act.below (s : State κ ω) : Act κ ω → Option (Proxy.Act κ)
  | call k w => some (.call k w)
  | receive _ _ => none
  | worker i r => (s.workers i).map fun m => .worker m.sender r
  | spuriousCall k => some (.spuriousCall k)
  | spuriousWorker k => some (.spuriousWorker k)

/-- The stage behind a stage. -/
def Stage.next : Stage → Stage
  | unlinkOld => create
  | create => mapped
  | mapped => unlink
  | unlink | unlinked => unlinked

/-- The message of call `k` has been sent. -/
def State.sent (s : State κ ω) (k : κ) : Bool := (s.proxy.calls k).chan.sent

/-- At most one call sends its message, and the message goes to the end of the queue. -/
inductive Posts (s s' : State κ ω) : Prop
  | none (hsent : ∀ k, s'.sent k = s.sent k) (hqueue : s'.queue = s.queue)
  | one (m : Message κ) (hbefore : s.sent m.sender = false) (hafter : s'.sent m.sender = true)
      (hothers : ∀ k ≠ m.sender, s'.sent k = s.sent k) (hqueue : s'.queue = s.queue ++ [m])

variable [DecidableEq ω]

/-- What a step does. -/
inductive Turn (E : κ → Channel.Env) (s : State κ ω) : Act κ ω → State κ ω → Prop
  /-- In `create_shm_channel` or `destroy_shm_seg`. -/
  | stage (k : κ) (w : ℤ) (s' : State κ ω) (hp : (s.proxy.calls k).pc = .body)
      (hs : s.stage k ≠ .unlinked) (hproxy : s'.proxy = s.proxy) (hview : s'.view E = s.view E)
      (hstage : s'.stage = Function.update s.stage k (s.stage k).next)
      (hqueue : s'.queue = s.queue) (hworkers : s'.workers = s.workers)
      (hwmem : s'.wmem = s.wmem) : Turn E s (.call k w) s'
  | receive (i : ω) (n : ℕ) (m : Message κ) (hi : s.workers i = none) (hm : s.queue[n]? = some m) :
      Turn E s (.receive i n) { s with
        workers := Function.update s.workers i (some m)
        queue := s.queue.eraseIdx n }
  | retry (i : ω) (r : ℤ) (m : Message κ) (hi : s.workers i = some m)
      (hw : s.wmem m.sender = none) (hn : s.names m.fldes = none) : Turn E s (.worker i r) s
  | openMessage (i : ω) (r : ℤ) (m : Message κ) (o : ℕ) (hi : s.workers i = some m)
      (hw : s.wmem m.sender = none) :
      Turn E s (.worker i r) { s with wmem := Function.update s.wmem m.sender (some o) }
  | finish (i : ω) (r : ℤ) (m : Message κ) (hi : s.workers i = some m)
      (hp : (s.proxy.calls m.sender).chan.wpc = .finished) :
      Turn E s (.worker i r) { s with workers := Function.update s.workers i none }
  /-- In the pool or in an exchange. -/
  | proxy (a : Act κ ω) (b : Proxy.Act κ) (s' : State κ ω) (hb : a.below s = some b)
      (h : Proxy.step E (s.view E) b = some (s'.view E)) (hstage : s'.stage = s.stage)
      (hworkers : s'.workers = s.workers) (hwmem : s'.wmem = s.wmem) (hposts : Posts s s') :
      Turn E s a s'

/-- The proxy of `Proxy.lean` stands still, or makes the step of the action. -/
theorem Turn.view {a : Act κ ω} (h : Turn E s a s') : s'.view E = s.view E ∨
    ∃ b, a.below s = some b ∧ Proxy.step E (s.view E) b = some (s'.view E) := by
  cases h with
  | stage k w s' hp hs hproxy hview => exact .inl hview
  | proxy a b s' hb h => exact .inr ⟨b, hb, h⟩
  | _ => exact .inl rfl

/-! ### Messages -/

omit [DecidableEq ω] in
theorem Posts.setCall {c : Proxy.Call} (hproxy : s'.proxy = s.proxy.setCall k c)
    (hsent : c.chan.sent = s.sent k) (hqueue : s'.queue = s.queue) : Posts s s' := by
  refine .none (fun j => ?_) hqueue
  unfold State.sent
  rw [hproxy]
  rcases eq_or_ne j k with rfl | hj
  · rw [Proxy.setCall_self]
    exact hsent
  · rw [Proxy.setCall_of_ne _ _ _ hj]

omit [DecidableEq ω] in
theorem Names.posts_quiet {p : Proxy.State κ} (hN : Names s)
    (hq : (s.proxy.calls k).pc = .body → s.stage k = .unlinked)
    (h : Proxy.callStep E s.proxy k w = some p) : Posts s { s with proxy := p } := by
  refine .none (fun j => ?_) rfl
  rcases eq_or_ne j k with rfl | hj
  · exact (quiet_self (hN.gone hq) h).2.2.1
  · exact congrArg Channel.State.sent (woken_same (Proxy.callStep_frame h j hj)).2.1

omit [DecidableEq ω] in
/-- The message of a call goes into the queue at `mq_send`. -/
theorem Names.posts_handle {o : ℕ} (hN : Names s) (hR : Proxy.Reachable segments E (s.view E))
    (hm : s.mem k = some o) (h : s.handle E k o w = some s') : Posts s s' := by
  obtain ⟨ch, hch, rfl⟩ := hN.handle_eq hm h
  have hsent : ch.sent = true ↔ s.sent k = true ∨ (s.proxy.calls k).chan.hpc = .mqSend :=
    (Channel.frame_handlerStep hch).sent
  by_cases hp : (s.proxy.calls k).chan.hpc = .mqSend
  · refine .one ⟨k, (s.proxy.calls k).fldes⟩ (not_sent hR (.inr hp)) ?_ ?_ (if_pos hp)
    · unfold State.sent
      rw [Proxy.setCall_self]
      exact hsent.mpr (.inr hp)
    · intro j hj
      unfold State.sent
      rw [Proxy.setCall_of_ne _ _ _ hj]
  · refine Posts.setCall rfl ?_ (if_neg hp)
    rw [Bool.eq_iff_iff, hsent]
    exact or_iff_left hp

/-! ### The steps -/

theorem turn_callStep (hN : Names s) (hR : Proxy.Reachable segments E (s.view E))
    (halive : s.proxy.exited = false) (h : callStep E s k w = some s') :
    Turn E s (.call k w) s' := by
  have hstep : ∀ t, Proxy.callStep E (s.view E) k w = some t →
      Proxy.step E (s.view E) (.call k w) = some t := by
    intro t ht
    unfold Proxy.step
    rwa [if_neg (show ¬(s.view E).exited = true by simp [State.view, mapChan, halive])]
  unfold callStep at h
  dsimp only at h
  by_cases hb : (s.proxy.calls k).pc = .body ∧ s.stage k ≠ .unlinked
  · rw [if_pos hb] at h
    cases hs : s.stage k with
    | unlinkOld | unlink =>
        simp only [hs] at h
        obtain rfl := Option.some.inj h
        exact .stage k w _ hb.1 hb.2 rfl rfl (by rw [hs]; rfl) rfl rfl rfl
    | create =>
        simp only [hs, names_free hN hR hb.1 hs] at h
        obtain rfl := Option.some.inj h
        exact .stage k w _ hb.1 hb.2 rfl (hN.view_create hs _) (by rw [hs]; rfl) rfl rfl rfl
    | mapped =>
        simp only [hs] at h
        split at h
        · obtain rfl := Option.some.inj h
          exact .stage k w _ hb.1 hb.2 rfl rfl (by rw [hs]; rfl) rfl rfl rfl
        · next hr =>
            obtain ⟨o, hm, h⟩ := Option.bind_eq_some_iff.mp h
            have hview := hN.view_handle hb.1 hm hr h
            have hposts := hN.posts_handle hR hm h
            obtain ⟨ch, _, rfl⟩ := hN.handle_eq hm h
            exact .proxy _ (.call k w) _ rfl (hstep _ hview) rfl rfl rfl hposts
    | unlinked => exact absurd hs hb.2
  · rw [if_neg hb] at h
    obtain ⟨p, hp, rfl⟩ := Option.map_eq_some_iff.mp h
    have hgone : (s.proxy.calls k).pc = .body → s.stage k = .unlinked := fun hbody => by
      by_contra hs
      exact hb ⟨hbody, hs⟩
    have hview := callStep_mapChan (s.object E) (hN.gone hgone) hp
    exact .proxy _ (.call k w) _ rfl (hstep _ hview) rfl rfl rfl (hN.posts_quiet hgone hp)

theorem turn_workerStep {i : ω} (hN : Names s) (halive : s.proxy.exited = false)
    (h : workerStep E s i r = some s') : Turn E s (.worker i r) s' := by
  have hstep : ∀ k t, (Channel.workerStep (E k) ((s.view E).calls k).chan r).map (fun ch =>
      (s.view E).setCall k { (s.view E).calls k with chan := ch }) = some t →
      Proxy.step E (s.view E) (.worker k r) = some t := by
    intro k t ht
    unfold Proxy.step
    rwa [if_neg (show ¬(s.view E).exited = true by simp [State.view, mapChan, halive])]
  unfold workerStep at h
  obtain ⟨m, hi, h⟩ := Option.bind_eq_some_iff.mp h
  have hb : Act.below s (.worker i r) = some (.worker m.sender r) := by
    rw [Act.below, hi, Option.map_some]
  dsimp only at h
  split at h
  · next hp =>
      obtain ⟨ch, hch, rfl⟩ := Option.map_eq_some_iff.mp h
      exact .proxy _ _ _ hb (hstep _ _ (view_get hp hch)) rfl rfl rfl
        (Posts.setCall rfl (Channel.frame_workerStep hch).sent rfl)
  · split at h
    · next hw =>
        split at h
        · next hn =>
            obtain rfl := Option.some.inj h
            exact .retry i r m hi hw hn
        · next o _ =>
            obtain rfl := Option.some.inj h
            exact .openMessage i r m o hi hw
    · next o hw =>
        split at h
        · next hp =>
            obtain rfl := Option.some.inj h
            exact .finish i r m hi hp
        · have hview := hN.view_serve hw h
          obtain ⟨ch, hch, rfl⟩ := hN.serve_eq (hN.opened m.sender o hw) h
          exact .proxy _ _ _ hb (hstep _ _ hview) rfl rfl rfl
            (Posts.setCall rfl (Channel.frame_workerStep hch).sent rfl)

/-- **Every step is a turn.** -/
theorem turn_step {a : Act κ ω} (hN : Names s) (hR : Proxy.Reachable segments E (s.view E))
    (h : step E s a = some s') : Turn E s a s' := by
  obtain ⟨halive, _⟩ := move_step h
  have hexited : ¬(s.view E).exited = true := by simp [State.view, mapChan, halive]
  unfold step at h
  rw [if_neg (by rw [halive]; exact Bool.false_ne_true)] at h
  cases a with
  | call k w => exact turn_callStep hN hR halive h
  | receive i n =>
      dsimp only at h
      split at h
      · next m hi hm =>
          obtain rfl := Option.some.inj h
          exact .receive i n m hi hm
      · cases h
  | worker i r => exact turn_workerStep hN halive h
  | spuriousCall k =>
      obtain rfl := Option.some.inj h
      refine .proxy _ (.spuriousCall k) _ rfl ?_ rfl rfl rfl (Posts.setCall rfl rfl rfl)
      unfold Proxy.step
      rw [if_neg hexited, view_setCall]
      rfl
  | spuriousWorker k =>
      obtain rfl := Option.some.inj h
      refine .proxy _ (.spuriousWorker k) _ rfl ?_ rfl rfl rfl (Posts.setCall rfl rfl rfl)
      unfold Proxy.step
      rw [if_neg hexited, view_setCall]
      rfl

end OsProjects.SharedMemory
