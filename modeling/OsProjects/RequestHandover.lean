import OsProjects.Decimal
import OsProjects.Simplecached
import Mathlib.Data.Fintype.Basic

/-! # Handing requests to the workers

Tickets are handed over exactly once in every run: those popped, those queued and the one in the
hands of `main` are together all messages received, each once and in order (`Handed`).  The
*messages* are another matter, because all pointers lead to the one variable `data`: a worker
reads the fields of its own message as long as no newer message with other fields has arrived
before.

* `handover_intact` — in a run in which every message received agrees with each outstanding one
  on the fields still to be read (`Agreeable`), every ticket goes to one worker and every value
  that a worker reads is that of the message of its ticket.
* `handover_mixed` — without the condition a worker looks up the path of another request. -/

namespace OsProjects.Simplecached

open Monitor Transition

variable {ω : Type*} [DecidableEq ω]

/-- `main` has a message that it has not enqueued. -/
def MainPc.hands : MainPc → Bool
  | waitRoom _ | enqueue => true
  | _ => false

/-- The ticket in the hands of `main`. -/
def State.inHand (s : State ω) : List ℕ := bif s.main.hands then [s.received.length - 1] else []

/-- The worker acts on a ticket. -/
def WorkerPc.busy : WorkerPc → Bool
  | waitRequest _ | pop => false
  | _ => true

/-- A worker at this point, whose ticket is for the message `old`, reads nothing wrong from here
on if `data` stays `m`. -/
def WorkerPc.Sees (old : Option Msg) (m : Msg) : WorkerPc → Prop
  | waitRequest _ | pop => True
  | decrement | unlock | signal | get => old = some m
  | shmOpen => ∃ o ∈ old, m.fldes = o.fldes ∧ m.segmentSize = o.segmentSize
  | ftruncate | mmap | serve | munmap => ∃ o ∈ old, m.segmentSize = o.segmentSize

instance (old : Option Msg) (m : Msg) : (p : WorkerPc) → Decidable (p.Sees old m)
  | .waitRequest _ | .pop => isTrue trivial
  | .decrement | .unlock | .signal | .get => inferInstanceAs (Decidable (old = some m))
  | .shmOpen =>
      inferInstanceAs (Decidable (∃ o ∈ old, m.fldes = o.fldes ∧ m.segmentSize = o.segmentSize))
  | .ftruncate | .mmap | .serve | .munmap =>
      inferInstanceAs (Decidable (∃ o ∈ old, m.segmentSize = o.segmentSize))

/-- A message that arrives agrees with every outstanding message on the fields still to be
read. -/
def Agreeable (s : State ω) : Act ω → Prop
  | .main (some m) => s.main = .receive →
      (∀ t ∈ s.mqDataQueue, s.received[t]? = some m) ∧
        ∀ w, (s.workers w).pc.Sees s.received[(s.workers w).msg]? m
  | _ => True

instance [Fintype ω] (s : State ω) : (a : Act ω) → Decidable (Agreeable s a)
  | .main (some _) => inferInstanceAs (Decidable (_ → _ ∧ _))
  | .main none | .worker _ _ | .spuriousMain | .spuriousWorker _ => isTrue trivial

@[simp] theorem MainPc.hands_wake (p : MainPc) : p.wake.hands = p.hands := by cases p <;> rfl

@[simp] theorem WorkerPc.busy_wake (p : WorkerPc) : p.wake.busy = p.busy := by cases p <;> rfl

@[simp] theorem WorkerPc.Sees_wake (old : Option Msg) (m : Msg) (p : WorkerPc) :
    p.wake.Sees old m ↔ p.Sees old m := by
  cases p <;> rfl

@[simp] theorem setWorker_self (s : State ω) (w : ω) (c : Worker) :
    (s.setWorker w c).workers w = c := by
  simp [State.setWorker]

theorem setWorker_of_ne (s : State ω) (c : Worker) {v w : ω} (h : v ≠ w) :
    (s.setWorker w c).workers v = s.workers v := by
  simp [State.setWorker, h]

/-! ### Tickets -/

/-- Tickets are handed over once, to the worker that acts on them. -/
structure Handed (s : State ω) : Prop where
  conserved : s.taken.map Prod.snd ++ s.mqDataQueue ++ s.inHand = List.range s.received.length
  busy : ∀ w, (s.workers w).pc.busy = true → (w, (s.workers w).msg) ∈ s.taken
  used : ∀ x ∈ s.uses, (x.1, x.2.1) ∈ s.taken

omit [DecidableEq ω] in
theorem handed_init : Handed (init ω) where
  conserved := by simp [init, State.inHand, MainPc.hands]
  busy := by simp [init, WorkerPc.busy]
  used := by simp [init]

variable {s s' : State ω} {w : ω} {ok : Bool} {m : Option Msg}

omit [DecidableEq ω] in
theorem Handed.mainStep (hH : Handed s) (h : mainStep s m = some s') : Handed s' := by
  obtain ⟨hcons, hbusy, hused⟩ := hH
  unfold State.inHand at hcons
  unfold Simplecached.mainStep at h
  cases hp : s.main with
  | receive =>
      simp only [hp] at h hcons
      cases m with
      | none =>
          obtain rfl := Option.some.inj h
          exact ⟨by simpa [State.inHand, hp] using hcons, hbusy, hused⟩
      | some m =>
          obtain rfl := Option.some.inj h
          refine ⟨?_, hbusy, hused⟩
          simp only [MainPc.hands, cond_false, List.append_nil] at hcons
          simp [State.inHand, MainPc.hands, hcons, List.range_succ]
  | waitRoom p =>
      simp only [hp, Option.map_eq_some_iff] at h hcons
      obtain ⟨⟨_, q⟩, _, rfl⟩ := h
      refine ⟨?_, hbusy, hused⟩
      cases q <;> simpa [State.inHand, MainPc.hands] using hcons
  | enqueue =>
      simp only [hp, Option.some.injEq] at h hcons
      subst h
      exact ⟨by simpa [State.inHand, MainPc.hands] using hcons, hbusy, hused⟩
  | broadcast =>
      simp only [hp, Option.some.injEq] at h hcons
      subst h
      refine ⟨by simpa [State.inHand, MainPc.hands] using hcons, fun w hw => ?_, hused⟩
      exact hbusy w (by simpa using hw)
  | increment | unlock =>
      simp only [hp, Option.some.injEq] at h hcons
      subst h
      exact ⟨by simpa [State.inHand, MainPc.hands] using hcons, hbusy, hused⟩

/-- A step of one worker does not touch the others. -/
theorem workerStep_frame (h : workerStep s w ok = some s') : ∀ v ≠ w, s'.workers v = s.workers v := by
  intro v hv
  unfold workerStep at h
  cases hp : (s.workers w).pc with
  | waitRequest p =>
      simp only [hp, Option.map_eq_some_iff] at h
      obtain ⟨_, _, rfl⟩ := h
      exact setWorker_of_ne s _ hv
  | pop =>
      simp only [hp] at h
      split at h <;> obtain rfl := Option.some.inj h
      · rfl
      · exact setWorker_of_ne s _ hv
  | mmap | munmap =>
      simp only [hp] at h
      split at h <;> obtain rfl := Option.some.inj h <;> exact setWorker_of_ne s _ hv
  | serve =>
      simp only [hp] at h
      split at h <;> obtain rfl := Option.some.inj h <;> exact setWorker_of_ne s _ hv
  | _ =>
      simp only [hp, Option.some.injEq] at h
      subst h
      exact setWorker_of_ne s _ hv

omit [DecidableEq ω] in
/-- The worker keeps its ticket, or has none, and may have read a field. -/
theorem Handed.move (hH : Handed s) (hframe : ∀ v ≠ w, s'.workers v = s.workers v)
    (hw : (s'.workers w).pc.busy = true →
      (s'.workers w).msg = (s.workers w).msg ∧ (s.workers w).pc.busy = true)
    (huses : s'.uses = s.uses ∨ ((s.workers w).pc.busy = true ∧
      ∃ u, s'.uses = s.uses ++ [(w, (s.workers w).msg, u)]))
    (hqueue : s'.mqDataQueue = s.mqDataQueue) (hmain : s'.main.hands = s.main.hands)
    (hrec : s'.received = s.received) (htaken : s'.taken = s.taken) : Handed s' := by
  obtain ⟨hcons, hbusy, hused⟩ := hH
  refine ⟨?_, fun v hv => ?_, fun x hx => ?_⟩
  · simpa only [State.inHand, hqueue, hmain, hrec, htaken] using hcons
  · rw [htaken]
    rcases eq_or_ne v w with rfl | hvw
    · obtain ⟨hmsg, hb⟩ := hw hv
      rw [hmsg]
      exact hbusy v hb
    · rw [hframe v hvw] at hv ⊢
      exact hbusy v hv
  · rw [htaken]
    obtain heq | ⟨hb, u, heq⟩ := huses <;> rw [heq] at hx
    · exact hused x hx
    · rcases List.mem_append.mp hx with hx | hx
      · exact hused x hx
      · obtain rfl := List.mem_singleton.mp hx
        exact hbusy w hb

theorem Handed.workerStep (hH : Handed s) (h : workerStep s w ok = some s') : Handed s' := by
  have hframe := workerStep_frame h
  unfold Simplecached.workerStep at h
  cases hp : (s.workers w).pc with
  | waitRequest p =>
      simp only [hp, Option.map_eq_some_iff] at h
      obtain ⟨⟨_, q⟩, _, rfl⟩ := h
      refine hH.move hframe ?_ (.inl rfl) rfl rfl rfl rfl
      cases q <;> simp [WorkerPc.busy]
  | pop =>
      simp only [hp] at h
      split at h <;> obtain rfl := Option.some.inj h
      · exact ⟨hH.conserved, hH.busy, hH.used⟩
      · next t q hq =>
          obtain ⟨hcons, hbusy, hused⟩ := hH
          refine ⟨?_, fun v hv => ?_, fun x hx => List.mem_append_left _ (hused x hx)⟩
          · rw [hq] at hcons
            simpa [State.inHand, State.setWorker] using hcons
          · rcases eq_or_ne v w with rfl | hvw
            · simp
            · rw [hframe v hvw] at hv ⊢
              exact List.mem_append_left _ (hbusy v hv)
  | mmap | munmap =>
      simp only [hp] at h
      split at h <;> obtain rfl := Option.some.inj h <;>
        exact hH.move hframe (by simp [State.use, hp, WorkerPc.busy])
          (.inr ⟨by rw [hp]; rfl, _, rfl⟩) rfl rfl rfl rfl
  | serve =>
      simp only [hp] at h
      split at h <;> obtain rfl := Option.some.inj h
      · exact hH.move hframe (by simp [State.use, hp, WorkerPc.busy])
          (.inr ⟨by rw [hp]; rfl, _, rfl⟩) rfl rfl rfl rfl
      · exact hH.move hframe (by simp [hp, WorkerPc.busy]) (.inl rfl) rfl rfl rfl rfl
  | signal =>
      simp only [hp, Option.some.injEq] at h
      subst h
      exact hH.move hframe (by simp [hp, WorkerPc.busy]) (.inl rfl) rfl (by simp)
        rfl rfl
  | decrement | unlock =>
      simp only [hp, Option.some.injEq] at h
      subst h
      exact hH.move hframe (by simp [hp, WorkerPc.busy]) (.inl rfl) rfl rfl rfl rfl
  | get | shmOpen | ftruncate =>
      simp only [hp, Option.some.injEq] at h
      subst h
      exact hH.move hframe (by simp [State.use, hp, WorkerPc.busy])
        (.inr ⟨by rw [hp]; rfl, _, rfl⟩) rfl rfl rfl rfl

theorem Handed.step {a : Act ω} (hH : Handed s) (h : step s a = some s') : Handed s' := by
  unfold Simplecached.step at h
  split at h
  · cases h
  · cases a with
    | main m => exact hH.mainStep h
    | worker w ok => exact hH.workerStep h
    | spuriousMain =>
        obtain rfl := Option.some.inj h
        obtain ⟨hcons, hbusy, hused⟩ := hH
        exact ⟨by simpa [State.inHand] using hcons, hbusy, hused⟩
    | spuriousWorker w =>
        obtain rfl := Option.some.inj h
        exact hH.move (fun v hv => setWorker_of_ne s _ hv) (by simp) (.inl rfl) rfl rfl rfl rfl

theorem Reachable.handed {ok : State ω → Act ω → Prop} (h : Reachable ok s) : Handed s :=
  h.invariant handed_init fun _ _ _ hH _ hs => hH.step hs

/-! ### Messages -/

/-- What the workers will still read is what belongs to their tickets. -/
structure Inv (s : State ω) : Prop where
  queue : ∀ t ∈ s.mqDataQueue, s.received[t]? = some s.data
  hand : s.main.hands = true → s.received[s.received.length - 1]? = some s.data
  workers : ∀ w, (s.workers w).pc.Sees s.received[(s.workers w).msg]? s.data
  uses : ∀ x ∈ s.uses, ∃ m, s.received[x.2.1]? = some m ∧ x.2.2.Of m

theorem getElem?_received {l : List Msg} {t : ℕ} {o : Msg} (m : Msg) (h : l[t]? = some o) :
    (l ++ [m])[t]? = some o := by
  obtain ⟨ht, _⟩ := List.getElem?_eq_some_iff.mp h
  rw [List.getElem?_append_left ht]
  exact h

theorem WorkerPc.Sees.append {p : WorkerPc} {t : ℕ} {l : List Msg} {m m' : Msg}
    (h : p.Sees l[t]? m) : p.Sees (l ++ [m'])[t]? m := by
  cases p with
  | waitRequest _ | pop => trivial
  | decrement | unlock | signal | get => exact getElem?_received m' h
  | shmOpen | ftruncate | mmap | serve | munmap =>
      obtain ⟨o, ho, hrest⟩ := h
      exact ⟨o, getElem?_received m' ho, hrest⟩

omit [DecidableEq ω] in
theorem Inv.mainStep (hI : Inv s) (ha : Agreeable s (.main m)) (h : mainStep s m = some s') :
    Inv s' := by
  obtain ⟨hqueue, hhand, hworkers, huses⟩ := hI
  unfold Simplecached.mainStep at h
  cases hp : s.main with
  | receive =>
      simp only [hp] at h
      cases m with
      | none =>
          obtain rfl := Option.some.inj h
          exact ⟨hqueue, by simp [MainPc.hands], hworkers, huses⟩
      | some m =>
          obtain rfl := Option.some.inj h
          obtain ⟨hq, hw⟩ := ha hp
          refine ⟨fun t ht => getElem?_received m (hq t ht), fun _ => by simp,
            fun w => (hw w).append, fun x hx => ?_⟩
          obtain ⟨o, ho, hof⟩ := huses x hx
          exact ⟨o, getElem?_received m ho, hof⟩
  | waitRoom p =>
      simp only [hp, Option.map_eq_some_iff] at h
      obtain ⟨⟨_, q⟩, _, rfl⟩ := h
      refine ⟨hqueue, fun _ => hhand (by rw [hp]; rfl), hworkers, huses⟩
  | enqueue =>
      simp only [hp, Option.some.injEq] at h
      subst h
      refine ⟨fun t ht => ?_, by simp [MainPc.hands], hworkers, huses⟩
      rcases List.mem_append.mp ht with ht | ht
      · exact hqueue t ht
      · obtain rfl := List.mem_singleton.mp ht
        exact hhand (by rw [hp]; rfl)
  | broadcast =>
      simp only [hp, Option.some.injEq] at h
      subst h
      exact ⟨hqueue, by simp [MainPc.hands], fun w => by simpa using hworkers w, huses⟩
  | increment | unlock =>
      simp only [hp, Option.some.injEq] at h
      subst h
      exact ⟨hqueue, by simp [MainPc.hands], hworkers, huses⟩

omit [DecidableEq ω] in
/-- A worker goes on, and has read at most a field of its message. -/
theorem Inv.move (hI : Inv s) (hframe : ∀ v ≠ w, s'.workers v = s.workers v)
    (hw : (s'.workers w).pc.Sees s.received[(s'.workers w).msg]? s.data)
    (huses : s'.uses = s.uses ∨ ∃ u m, s'.uses = s.uses ++ [(w, (s.workers w).msg, u)] ∧
      s.received[(s.workers w).msg]? = some m ∧ u.Of m)
    (hdata : s'.data = s.data) (hqueue : s'.mqDataQueue ⊆ s.mqDataQueue)
    (hmain : s'.main.hands = s.main.hands) (hrec : s'.received = s.received) : Inv s' := by
  obtain ⟨hq, hhand, hworkers, hu⟩ := hI
  refine ⟨fun t ht => ?_, ?_, fun v => ?_, fun x hx => ?_⟩
  · rw [hrec, hdata]
    exact hq t (hqueue ht)
  · rw [hmain, hrec, hdata]
    exact hhand
  · rw [hrec, hdata]
    rcases eq_or_ne v w with rfl | hvw
    · exact hw
    · rw [hframe v hvw]
      exact hworkers v
  · rw [hrec]
    obtain heq | ⟨u, m, heq, hm, hof⟩ := huses <;> rw [heq] at hx
    · exact hu x hx
    · rcases List.mem_append.mp hx with hx | hx
      · exact hu x hx
      · obtain rfl := List.mem_singleton.mp hx
        exact ⟨m, hm, hof⟩

theorem Inv.workerStep (hI : Inv s) (h : workerStep s w ok = some s') : Inv s' := by
  have hframe := workerStep_frame h
  have hsee := hI.workers w
  unfold Simplecached.workerStep at h
  cases hp : (s.workers w).pc with
  | waitRequest p =>
      simp only [hp, Option.map_eq_some_iff] at h
      obtain ⟨⟨_, q⟩, _, rfl⟩ := h
      refine hI.move hframe ?_ (.inl rfl) rfl (List.Subset.refl _) rfl rfl
      cases q <;> simp [WorkerPc.Sees]
  | pop =>
      simp only [hp] at h
      split at h <;> obtain rfl := Option.some.inj h
      · exact ⟨hI.queue, hI.hand, hI.workers, hI.uses⟩
      · next t q hq =>
          have ht := hI.queue t (by rw [hq]; exact List.mem_cons_self)
          refine hI.move hframe ?_ (.inl rfl) rfl ?_ rfl rfl
          · simpa [WorkerPc.Sees] using ht
          · rw [hq]
            exact List.subset_cons_self t q
  | decrement | unlock =>
      simp only [hp, Option.some.injEq] at h hsee
      subst h
      exact hI.move hframe (by simpa [WorkerPc.Sees] using hsee) (.inl rfl) rfl (List.Subset.refl _)
        rfl rfl
  | signal =>
      simp only [hp, Option.some.injEq] at h hsee
      subst h
      exact hI.move hframe (by simpa [WorkerPc.Sees] using hsee) (.inl rfl) rfl (List.Subset.refl _)
        (by simp) rfl
  | get =>
      simp only [hp, Option.some.injEq] at h hsee
      subst h
      refine hI.move hframe ?_ (.inr ⟨_, _, rfl, hsee, rfl⟩) rfl (List.Subset.refl _) rfl rfl
      have hsee : s.received[(s.workers w).msg]? = some s.data := hsee
      simp [State.use, WorkerPc.Sees, hsee]
  | shmOpen =>
      simp only [hp, Option.some.injEq] at h hsee
      subst h
      obtain ⟨o, ho, hf, hn⟩ := hsee
      refine hI.move hframe ?_ (.inr ⟨_, o, rfl, ho, hf⟩) rfl (List.Subset.refl _) rfl rfl
      cases ok
      · simpa [State.use, WorkerPc.Sees] using ⟨o, ho, hf, hn⟩
      · simpa [State.use, WorkerPc.Sees] using ⟨o, ho, hn⟩
  | ftruncate =>
      simp only [hp, Option.some.injEq] at h hsee
      subst h
      obtain ⟨o, ho, hn⟩ := hsee
      refine hI.move hframe ?_ (.inr ⟨_, o, rfl, ho, hn⟩) rfl (List.Subset.refl _) rfl rfl
      simpa [State.use, WorkerPc.Sees] using ⟨o, ho, hn⟩
  | mmap =>
      simp only [hp] at h hsee
      obtain ⟨o, ho, hn⟩ := hsee
      split at h <;> obtain rfl := Option.some.inj h <;>
        refine hI.move hframe ?_ (.inr ⟨_, o, rfl, ho, hn⟩) rfl (List.Subset.refl _) rfl rfl <;>
        simpa [State.use, WorkerPc.Sees] using ⟨o, ho, hn⟩
  | munmap =>
      simp only [hp] at h hsee
      obtain ⟨o, ho, hn⟩ := hsee
      split at h <;> obtain rfl := Option.some.inj h <;>
        refine hI.move hframe ?_ (.inr ⟨_, o, rfl, ho, hn⟩) rfl (List.Subset.refl _) rfl rfl <;>
        simp [State.use, WorkerPc.Sees]
  | serve =>
      simp only [hp] at h hsee
      obtain ⟨o, ho, hn⟩ := hsee
      split at h <;> obtain rfl := Option.some.inj h
      · refine hI.move hframe ?_ (.inr ⟨_, o, rfl, ho, hn⟩) rfl (List.Subset.refl _) rfl rfl
        simpa [State.use, WorkerPc.Sees] using ⟨o, ho, hn⟩
      · refine hI.move hframe ?_ (.inl rfl) rfl (List.Subset.refl _) rfl rfl
        simpa [WorkerPc.Sees] using ⟨o, ho, hn⟩

theorem Inv.step {a : Act ω} (hI : Inv s) (ha : Agreeable s a) (h : step s a = some s') :
    Inv s' := by
  unfold Simplecached.step at h
  split at h
  · cases h
  · cases a with
    | main m => exact hI.mainStep ha h
    | worker w ok => exact hI.workerStep h
    | spuriousMain =>
        obtain rfl := Option.some.inj h
        obtain ⟨hqueue, hhand, hworkers, huses⟩ := hI
        exact ⟨hqueue, by simpa using hhand, hworkers, huses⟩
    | spuriousWorker w =>
        obtain rfl := Option.some.inj h
        exact hI.move (fun v hv => setWorker_of_ne s _ hv) (by simpa using hI.workers w) (.inl rfl) rfl
          (List.Subset.refl _) rfl rfl

omit [DecidableEq ω] in
theorem inv_init : Inv (init ω) where
  queue := by simp [init]
  hand := by simp [init, MainPc.hands]
  workers := by simp [init, WorkerPc.Sees]
  uses := by simp [init]

theorem Reachable.inv (h : Reachable Agreeable s) : Inv s :=
  h.invariant inv_init fun _ _ _ hI ha hs => hI.step ha hs

/-- **Requests are handed over intact** in a run in which arriving messages agree with the
outstanding ones on what is still to be read: the tickets popped, queued and in the hands of
`main` are those of all messages received, each once; whatever a worker reads, it reads for a
ticket that it has popped, and it is the field of that ticket's message. -/
theorem handover_intact (s : State ω) (h : Reachable Agreeable s) :
    s.taken.map Prod.snd ++ s.mqDataQueue ++ s.inHand = List.range s.received.length ∧
      ∀ w t u, (w, t, u) ∈ s.uses → (w, t) ∈ s.taken ∧ ∃ m, s.received[t]? = some m ∧ u.Of m := by
  have hH := Reachable.handed h
  have hI := Reachable.inv h
  exact ⟨hH.conserved, fun w t u hu => ⟨hH.used _ hu, hI.uses _ hu⟩⟩

/-- Two requests for different paths. -/
def requestA : Msg := ⟨1024, str "/a", str "/sharedmpath0"⟩
def requestB : Msg := ⟨1024, str "/b", str "/sharedmpath1"⟩

/-- One request is received, queued, popped, looked up and opened before the next arrives. -/
def calmRun : List (Act Unit) :=
  .main (some requestA) :: List.replicate 6 (.main none) ++
    List.replicate 14 (.worker () true) ++ [.worker () false, .worker () true, .main (some requestB)]

def calmEnd : State Unit := (execOk step Agreeable (init Unit) calmRun).getD (init Unit)

theorem handover_intact_calm :
    calmEnd.received = [requestA, requestB] ∧
      calmEnd.taken.map Prod.snd ++ calmEnd.mqDataQueue ++ calmEnd.inHand =
        List.range calmEnd.received.length :=
  ⟨by decide +kernel, (handover_intact calmEnd (reach_of_execOk calmRun rfl)).1⟩

/-- Both requests are received before the worker pops the first. -/
def mixedRun : List (Act Unit) :=
  .main (some requestA) :: List.replicate 6 (.main none) ++ .main (some requestB) ::
    List.replicate 7 (.worker () true)

def mixedEnd : State Unit := (exec step (init Unit) mixedRun).getD (init Unit)

theorem handover_mixed :
    ¬ ∀ s : State Unit, Reachable Any s →
      ∀ w t u, (w, t, u) ∈ s.uses → ∃ m, s.received[t]? = some m ∧ u.Of m := by
  intro h
  have hu : ((), 0, Use.path (str "/b")) ∈ mixedEnd.uses := by decide +kernel
  have hr : mixedEnd.received[0]? = some requestA := by decide +kernel
  obtain ⟨m, hm, hof⟩ := h mixedEnd (reach_of_exec mixedRun rfl) () 0 _ hu
  obtain rfl := Option.some.inj (hr.symm.trans hm)
  exact absurd hof (by unfold Use.Of; decide)

end OsProjects.Simplecached
