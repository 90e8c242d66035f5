import OsProjects.SegmentNames

/-! # The reuse of segment names

A segment id is used again by later calls, while a worker may still have the object of an earlier
call mapped.

* `Reachable.names` — a run of the shared memory model is a run of `Proxy.lean`, where every call
  has its own segment.
* `Reachable.delivered` — no two workers serve one call.
* `segment_names` — a worker maps the object of the call whose message it serves, and a handler finds
  in its object only what it or its own worker wrote. -/

namespace OsProjects.SharedMemory

open Monitor Transition

variable {κ ω : Type*} [DecidableEq κ]
variable {segments : ℕ} {E : κ → Channel.Env} {s s' : State κ ω} {k : κ} {w : ℤ}

/-! ### Refinement -/

/-- A call or its worker leaves the exchange at `ch` and stores the segment in the object. -/
theorem Names.view_store (E : κ → Channel.Env) {o : ℕ} {ch : Channel.State} {ob : Object κ}
    {q : List (Message κ)} (hN : Names s) (hm : s.mem k = some o) (hob : ob.view ch = ch) :
    State.view E { s with
      proxy := s.proxy.setCall k { s.proxy.calls k with chan := ch }
      objects := Function.update s.objects o ob
      queue := q } = (s.view E).setCall k { (s.view E).calls k with chan := ch } := by
  refine proxy_ext rfl rfl rfl rfl rfl fun j => ?_
  rcases eq_or_ne j k with rfl | hj
  · simp [State.view, State.object, mapChan, hm, hob]
  · -- the object of another call is another one
    have ho : (s.mem j).elim (zeroFilled (E j)) (Function.update s.objects o ob) =
        (s.mem j).elim (zeroFilled (E j)) s.objects := by
      cases hmj : s.mem j with
      | none => rfl
      | some o' =>
          have hne : o' ≠ o := by
            rintro rfl
            exact hj (hN.injective j k o' hmj hm)
          simp [hne]
    simp [State.view, State.object, mapChan, Proxy.setCall_of_ne _ _ _ hj, ho]

theorem Names.view_create (hN : Names s) (hs : s.stage k = .create)
    (names : List Byte → Option ℕ) :
    State.view E { s with
      names := names
      objects := Function.update s.objects s.next (zeroFilled (E k))
      next := s.next + 1
      mem := Function.update s.mem k (some s.next)
      stage := Function.update s.stage k .mapped } = s.view E := by
  refine view_congr rfl fun j => ?_
  have hstage := hN.stage k
  rw [hs] at hstage
  unfold State.object
  dsimp only
  rcases eq_or_ne j k with rfl | hj
  · rw [Function.update_self, hstage.1]
    simp
  · rw [Function.update_of_ne hj]
    cases hmj : s.mem j with
    | none => rfl
    | some o =>
        have ho : o ≠ s.next := Nat.ne_of_lt (hN.fresh j o hmj)
        simp [ho]

theorem Names.view_handle {o : ℕ} (hN : Names s) (hp : (s.proxy.calls k).pc = .body)
    (hm : s.mem k = some o) (hr : (s.proxy.calls k).chan.hpc ≠ .release)
    (h : s.handle E k o w = some s') : Proxy.callStep E (s.view E) k w = some (s'.view E) := by
  obtain ⟨ch, hch, rfl⟩ := hN.handle_eq hm h
  rw [← object_eq E hm] at hch
  have hp' : ((s.view E).calls k).pc = .body := hp
  have hr' : ((s.view E).calls k).chan.hpc ≠ .release := hr
  rw [callStep_body hp' hr', hN.view_store E hm rfl]
  exact Option.map_eq_some_iff.mpr ⟨ch, hch, rfl⟩

theorem view_get {r : ℤ} {ch : Channel.State} (hp : (s.proxy.calls k).chan.wpc = .get)
    (h : Channel.workerStep (E k) (s.proxy.calls k).chan r = some ch) :
    (Channel.workerStep (E k) ((s.view E).calls k).chan r).map (fun ch =>
      (s.view E).setCall k { (s.view E).calls k with chan := ch }) =
        some (State.view E { s with
          proxy := s.proxy.setCall k { s.proxy.calls k with chan := ch } }) := by
  refine Option.map_eq_some_iff.mpr ⟨_, workerStep_get_view (s.object E k) hp h, ?_⟩
  rw [view_setCall]
  rfl

theorem Names.view_serve {o : ℕ} {r : ℤ} (hN : Names s) (hw : s.wmem k = some o)
    (h : s.serve E k o r = some s') :
    (Channel.workerStep (E k) ((s.view E).calls k).chan r).map (fun ch =>
      (s.view E).setCall k { (s.view E).calls k with chan := ch }) = some (s'.view E) := by
  have hm := hN.opened k o hw
  obtain ⟨ch, hch, rfl⟩ := hN.serve_eq hm h
  rw [← object_eq E hm] at hch
  rw [hN.view_store E hm rfl]
  exact Option.map_eq_some_iff.mpr ⟨ch, hch, rfl⟩

variable [DecidableEq ω]

/-- Every step stands still or is a step of the proxy of `Proxy.lean`. -/
theorem Names.refines (hN : Names s) (hR : Proxy.Reachable segments E (s.view E))
    (halive : s.proxy.exited = false) (hm : Move E s s') :
    s'.view E = s.view E ∨ ∃ a, Proxy.step E (s.view E) a = some (s'.view E) := by
  have hexited : ¬(s.view E).exited = true := by
    rw [show (s.view E).exited = s.proxy.exited from rfl, halive]
    simp
  unfold Proxy.step
  simp only [if_neg hexited]
  cases hm with
  | quiet k w p hq h =>
      exact .inr ⟨.call k w, callStep_mapChan (s.object E) (hN.gone hq) h⟩
  | bound k o hp hs hn =>
      rw [names_free hN hR hp hs] at hn
      cases hn
  | create k hp hs => exact .inl (hN.view_create hs _)
  | handle k o w s' hp hs hm hr h => exact .inr ⟨.call k w, hN.view_handle hp hm hr h⟩
  | get i m r ch hi hp h => exact .inr ⟨.worker m.sender r, view_get hp h⟩
  | serve k o r s' hw h => exact .inr ⟨.worker k r, hN.view_serve hw h⟩
  | wakeCall k =>
      refine .inr ⟨.spuriousCall k, congrArg some ?_⟩
      rw [view_setCall]
      rfl
  | wakeWorker k =>
      refine .inr ⟨.spuriousWorker k, congrArg some ?_⟩
      rw [view_setCall]
      rfl
  | _ => exact .inl rfl

/-! ### The invariant -/

theorem Names.move (hN : Names s) (hR : Proxy.Reachable segments E (s.view E))
    (hm : Move E s s') : Names s' := by
  cases hm with
  | quiet k w p hq h => exact hN.quiet hR hq h
  | unlinkOld k hp hs =>
      have hstage := hN.stage k
      rw [hs] at hstage
      exact hN.unlinkName hR hp (by rw [hs]; simp) rfl ⟨hstage.1, hstage.2, hp⟩
  | bound k o hp hs hn =>
      rw [names_free hN hR hp hs] at hn
      cases hn
  | create k hp hs => exact hN.create hR hp hs
  | handle k o w s' hp hs hm hr h => exact hN.handle hs hm hr h
  | unmap k hp hs hr => exact hN.unmap hp hs hr
  | unlink k hp hs =>
      have hstage := hN.stage k
      rw [hs] at hstage
      exact hN.unlinkName hR hp (by rw [hs]; simp) rfl ⟨hstage.1, .inl hstage.2.2⟩
  | receive i n m hm =>
      apply hN.oldMessages _ _
      intro m' hm'
      rcases hm' with hmem | ⟨j, hj⟩
      · exact .inl (List.mem_of_mem_eraseIdx hmem)
      · rcases eq_or_ne j i with rfl | hji
        · rw [Function.update_self] at hj
          obtain rfl := Option.some.inj hj
          exact .inl (List.mem_of_getElem? hm)
        · rw [Function.update_of_ne hji] at hj
          exact .inr ⟨j, hj⟩
  | get i m r ch hi hp h => exact hN.get hp h
  | retry => exact hN
  | openMessage i m o hi hp hw hn => exact hN.openMessage hR hi hw hn
  | serve k o r s' hw h => exact hN.serve hw h
  | finish i =>
      apply hN.oldMessages _ _
      intro m hm
      rcases hm with hmem | ⟨j, hj⟩
      · exact .inl hmem
      · rcases eq_or_ne j i with rfl | hji
        · rw [Function.update_self] at hj
          cases hj
        · rw [Function.update_of_ne hji] at hj
          exact .inr ⟨j, hj⟩
  | wakeCall k =>
      refine hN.setCall ((hN.stage k).woken (fun hp => ?_) (.inr rfl)) rfl id
        (hN.unopened k)
      rw [hp]
      rfl
  | wakeWorker k =>
      refine hN.setCall ((hN.stage k).woken id (.inl rfl)) rfl id fun hw => ?_
      rcases hN.unopened k hw with hg | hz
      · exact .inl (by rw [hg]; rfl)
      · exact .inr (by rw [hz]; rfl)

omit [DecidableEq κ] [DecidableEq ω] in
theorem names_init (segments : ℕ) (E : κ → Channel.Env) : Names (init segments E : State κ ω) where
  stage _ := ⟨rfl, rfl⟩
  binds _ h := by cases h
  bound _ _ h := by cases h
  fresh _ _ h := by cases h
  injective _ _ _ h := by cases h
  opened _ _ h := by cases h
  unopened _ _ := .inl rfl
  message m h := by
    rcases h with h | ⟨_, h⟩
    · cases h
    · cases h
  writers _ _ h := by cases h

/-- **The memory refines the proxy**: with the object of every call as its segment, a run of the
shared memory model is a run of `Proxy.lean`. -/
theorem Reachable.names (h : Reachable segments E s) :
    Names s ∧ Proxy.Reachable segments E (s.view E) := by
  induction h with
  | refl => exact ⟨names_init segments E, .refl⟩
  | step _ _ hs ih =>
      obtain ⟨hN, hR⟩ := ih
      obtain ⟨halive, hm⟩ := move_step hs
      refine ⟨hN.move hR hm, ?_⟩
      obtain heq | ⟨b, hb⟩ := hN.refines hR halive hm
      · rw [heq]
        exact hR
      · exact hR.step trivial hb

/-! ### One worker for a message -/

/-- The messages in the queue and those of the workers are from different calls. -/
structure Delivered (s : State κ ω) : Prop where
  queue : (s.queue.map Message.sender).Nodup
  apart : ∀ i m, s.workers i = some m → ∀ m' ∈ s.queue, m'.sender ≠ m.sender
  workers : ∀ i j m m', s.workers i = some m → s.workers j = some m' → m.sender = m'.sender → i = j

omit [DecidableEq κ] [DecidableEq ω] in
theorem Delivered.send (hD : Delivered s) (hN : Names s)
    (hsent : (s.proxy.calls k).chan.sent = false) (n : List Byte) {s' : State κ ω}
    (hq : s'.queue = s.queue ++ [⟨k, n⟩]) (hw : s'.workers = s.workers) : Delivered s' := by
  have hnew : ∀ m, (m ∈ s.queue ∨ ∃ i, s.workers i = some m) → m.sender ≠ k := by
    rintro m hm rfl
    rw [(hN.message m hm).2] at hsent
    cases hsent
  constructor
  · rw [hq, List.map_append]
    refine List.nodup_append.mpr ⟨hD.queue, List.nodup_singleton k, ?_⟩
    intro j hj j' hj'
    obtain ⟨m, hm, rfl⟩ := List.mem_map.mp hj
    rw [List.mem_singleton.mp hj']
    exact hnew m (.inl hm)
  · intro i m hi m' hm'
    rw [hw] at hi
    rw [hq] at hm'
    rcases List.mem_append.mp hm' with hm' | hm'
    · exact hD.apart i m hi m' hm'
    · rw [List.mem_singleton.mp hm']
      exact (hnew m (.inr ⟨i, hi⟩)).symm
  · rw [hw]
    exact hD.workers

omit [DecidableEq κ] in
theorem Delivered.receive {n : ℕ} {m : Message κ} (hD : Delivered s) (i : ω)
    (hm : s.queue[n]? = some m) : Delivered { s with
      workers := Function.update s.workers i (some m)
      queue := s.queue.eraseIdx n } := by
  have hmem := List.mem_of_getElem? hm
  have hleft : ∀ m' ∈ s.queue.eraseIdx n, m'.sender ≠ m.sender := by
    intro m' hm' heq
    obtain ⟨j, hne, hj⟩ := List.mem_eraseIdx_iff_getElem?.mp hm'
    have hlen : j < (s.queue.map Message.sender).length := by
      rw [List.length_map]
      exact (List.getElem?_eq_some_iff.mp hj).1
    have hmap : (s.queue.map Message.sender)[j]? = (s.queue.map Message.sender)[n]? := by
      rw [List.getElem?_map, List.getElem?_map, hj, hm, Option.map_some, Option.map_some, heq]
    exact hne ((List.getElem?_inj hlen hD.queue).mp hmap)
  constructor
  · exact hD.queue.sublist ((List.eraseIdx_sublist s.queue n).map _)
  · intro j m₁ hj m₂ hm₂
    dsimp only at hj hm₂
    rcases eq_or_ne j i with rfl | hji
    · rw [Function.update_self] at hj
      obtain rfl := Option.some.inj hj
      exact hleft m₂ hm₂
    · rw [Function.update_of_ne hji] at hj
      exact hD.apart j m₁ hj m₂ (List.mem_of_mem_eraseIdx hm₂)
  · intro j j' m₁ m₂ hj hj' heq
    dsimp only at hj hj'
    rcases eq_or_ne j i with rfl | hji
    · by_contra hne
      rw [Function.update_self] at hj
      rw [Function.update_of_ne (Ne.symm hne)] at hj'
      obtain rfl := Option.some.inj hj
      exact hD.apart j' m₂ hj' m hmem heq
    · rw [Function.update_of_ne hji] at hj
      rcases eq_or_ne j' i with rfl | hji'
      · rw [Function.update_self] at hj'
        obtain rfl := Option.some.inj hj'
        exact absurd heq.symm (hD.apart j m₁ hj m hmem)
      · rw [Function.update_of_ne hji'] at hj'
        exact hD.workers j j' m₁ m₂ hj hj' heq

theorem Delivered.move (hD : Delivered s) (hN : Names s)
    (hR : Proxy.Reachable segments E (s.view E)) (hm : Move E s s') : Delivered s' := by
  cases hm with
  | handle k o w s' hp hs hm hr h =>
      obtain ⟨ch, hch, rfl⟩ := hN.handle_eq hm h
      by_cases hsend : (s.proxy.calls k).chan.hpc = .mqSend
      · have hsent := not_sent hR (.inr hsend)
        exact hD.send hN hsent (s.proxy.calls k).fldes (by simp [hsend]) rfl
      · have hq : (if (s.proxy.calls k).chan.hpc = .mqSend then
            s.queue ++ [⟨k, (s.proxy.calls k).fldes⟩] else s.queue) = s.queue := if_neg hsend
        rw [hq]
        exact ⟨hD.queue, hD.apart, hD.workers⟩
  | receive i n m hm => exact hD.receive i hm
  | serve k o r s' hw h =>
      obtain ⟨ch, _, rfl⟩ := hN.serve_eq (hN.opened k o hw) h
      exact ⟨hD.queue, hD.apart, hD.workers⟩
  | finish i =>
      have hold : ∀ j m, Function.update s.workers i none j = some m → s.workers j = some m := by
        intro j m hj
        rcases eq_or_ne j i with rfl | hji
        · rw [Function.update_self] at hj
          cases hj
        · rwa [Function.update_of_ne hji] at hj
      exact ⟨hD.queue, fun j m hj => hD.apart j m (hold j m hj),
        fun j j' m m' hj hj' => hD.workers j j' m m' (hold j m hj) (hold j' m' hj')⟩
  | _ => exact ⟨hD.queue, hD.apart, hD.workers⟩

/-- No two workers serve one call. -/
theorem Reachable.delivered (h : Reachable segments E s) : Delivered s := by
  induction h with
  | refl =>
      constructor
      · exact List.nodup_nil
      · intro _ _ h
        cases h
      · intro _ _ _ _ h
        cases h
  | step hr _ hs ih =>
      obtain ⟨hN, hR⟩ := Reachable.names hr
      exact ih.move hN hR (move_step hs).2

/-- **Segment names are not crossed**, in every reachable state: every object is made by one call;
the object that a worker has mapped for a message is that of the call that sent it, and `shm_open`
of a worker that has not opened it yet would find that one; and the two fields of a call's object
were last written by that call or by the worker that serves it. -/
theorem segment_names (segments : ℕ) (E : κ → Channel.Env) (s : State κ ω)
    (h : Reachable segments E s) :
    (∀ j k o, s.mem j = some o → s.mem k = some o → j = k) ∧
    (∀ k o, s.wmem k = some o → s.mem k = some o) ∧
    (∀ i m, s.workers i = some m → s.wmem m.sender = none →
      s.mem m.sender ≠ none ∧ s.names m.fldes = s.mem m.sender) ∧
    ∀ k o, s.mem k = some o →
      (s.objects o).lengthWriter.Of k ∧ (s.objects o).writtenWriter.Of k := by
  obtain ⟨hN, hR⟩ := Reachable.names h
  exact ⟨hN.injective, hN.opened, fun i m hi hw => names_message hN hR (.inr ⟨i, hi⟩) hw,
    hN.writers⟩

/-- Every call is for a file that the cache does not have. -/
def missingFiles (_ : ℕ) : Channel.Env :=
  ⟨.pthread, Channel.proxyLayout, Channel.cacheLayout, 144, 1024, none, Channel.kilobyte_lt⟩

/-- One segment: call 0 has returned while its worker is still about to write `bytes_written`, and
a second worker has opened the object of call 1. -/
def reusedRun : List (Act ℕ ℕ) :=
  List.replicate 12 (.call 0 0) ++ .receive 0 0 :: List.replicate 7 (.worker 0 0) ++
    List.replicate 18 (.call 0 0) ++ List.replicate 12 (.call 1 0) ++
      .receive 1 0 :: List.replicate 2 (.worker 1 0)

def reusedEnd : State ℕ ℕ :=
  (exec (step missingFiles) (init 1 missingFiles) reusedRun).getD (init 1 missingFiles)

theorem segment_names_reused :
    (reusedEnd.names (Proxy.segmentId 0) = some 1 ∧ reusedEnd.wmem 0 = some 0 ∧
      (reusedEnd.proxy.calls 0).chan.wpc = .zeroWritten ∧ reusedEnd.wmem 1 = some 1) ∧
    (∀ k o, reusedEnd.wmem k = some o → reusedEnd.mem k = some o) ∧
    ∀ k o, reusedEnd.mem k = some o →
      (reusedEnd.objects o).lengthWriter.Of k ∧ (reusedEnd.objects o).writtenWriter.Of k := by
  have hreach : Reachable 1 missingFiles reusedEnd :=
    reach_of_isSome reusedRun (by decide +kernel)
  obtain ⟨_, hopened, _, hwriters⟩ := segment_names 1 missingFiles reusedEnd hreach
  exact ⟨by decide +kernel, hopened, hwriters⟩

end OsProjects.SharedMemory
