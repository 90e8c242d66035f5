import OsProjects.MinifyWork
import OsProjects.Termination
import Mathlib.Algebra.Order.BigOperators.Group.Finset

/-! # The minify client ends

Every turn of the loop of `worker_main` in `proj4/minifyjpeg_main.c` costs eight steps and takes a
request out of the queue, and a worker needs three more to find it empty and leave.

* `State.left` — the steps that are left, as long as the client has not exited.
* `minify_ends` — how long runs are, where they can stop, and that every run in which the input
  files can be opened ends with all workers returned. -/

namespace OsProjects.MinifyClient

open Monitor Transition

variable {ω : Type*} [DecidableEq ω] {E : Env} {s s' : State ω} {w : ω}

/-- The steps that a worker has left when it takes no further request. -/
def Pc.left : Pc → ℕ
  | unlock => 8
  | read => 7
  | minify => 6
  | write => 5
  | free => 4
  | lock | relock => 3
  | isempty => 2
  | pop | unlockEmpty => 1
  | returned => 0

/-! ### No deadlock -/

/-- The worker has a request. -/
def Pc.loaded : Pc → Bool
  | unlock | read | minify | write => true
  | _ => false

/-- Who is at a point that needs a request has one. -/
def Loaded (s : State ω) : Prop := ∀ w, (s.workers w).pc.loaded = true → (s.workers w).request ≠ none

theorem Loaded.move (hL : Loaded s) (h : Move E s w s') : Loaded s' := by
  intro v hv
  by_cases hvw : v = w
  · subst hvw
    have hw := hL v
    cases h with
    | underflow hp | missing hp => exact hw hv
    | take hp | unlock hp | read i bytes hp hi | minify hp | write i hp hi | free hp | leave hp =>
        simp_all [State.goto, State.setWorker, Pc.loaded]
    | test hp =>
        rw [goto_pc] at hv
        cases hq : s.queue.isEmpty <;> simp [hq, Pc.loaded] at hv
    | pop i q hp hq => simp [State.setWorker]
  · rw [h.frame v hvw] at hv ⊢
    exact hL v hv

theorem Reachable.loaded (h : Reachable E s) : Loaded s := by
  refine h.invariant (I := Loaded) (fun w hw => ?_) fun _ _ _ hL _ hs => hL.move (step_move hs)
  cases hw

/-- A worker that has not returned can step, unless it waits for the mutex. -/
theorem workerStep_isSome {file : Option (List Byte)} (hL : Loaded s)
    (hret : (s.workers w).pc ≠ .returned)
    (hlock : (s.workers w).pc = .lock ∨ (s.workers w).pc = .relock → s.mutex = none) :
    (workerStep E s w file).isSome = true := by
  have hw := hL w
  unfold workerStep
  dsimp only
  cases hp : (s.workers w).pc with
  | returned => exact absurd hp hret
  | lock | relock =>
      have hnone := hlock (by rw [hp]; simp)
      simp [hnone]
  | pop =>
      dsimp only
      split <;> rfl
  | read | write =>
      rw [hp] at hw
      obtain ⟨i, hi⟩ := Option.ne_none_iff_exists'.mp (hw rfl)
      simp [hi]
  | _ => rfl

/-- **No deadlock**: where nobody can step, all workers have returned. -/
theorem returned_of_stuck (hr : Reachable E s)
    (hstuck : ∀ w, workerStep E s w (some []) = none) (w : ω) : (s.workers w).pc = .returned := by
  have hcan : ∀ v, (s.workers v).pc ≠ .returned →
      ¬((s.workers v).pc = .lock ∨ (s.workers v).pc = .relock → s.mutex = none) := by
    intro v hv hlock
    have h : (workerStep E s v (some [])).isSome = true :=
      workerStep_isSome (Reachable.loaded hr) hv hlock
    rw [hstuck v] at h
    cases h
  by_contra hret
  obtain ⟨_, hheld⟩ := Classical.not_imp.mp (hcan w hret)
  -- it waits for the mutex, and the holder can step
  obtain ⟨v, hv⟩ := Option.ne_none_iff_exists'.mp hheld
  have hholds : (s.workers v).pc.holds = true := ((Reachable.queue hr).lock v).mp hv
  apply hcan v
  · intro hp
    simp [hp, Pc.holds] at hholds
  · rintro (hp | hp) <;> simp [hp, Pc.holds] at hholds

/-! ### The length of runs -/

section fintype
variable [Fintype ω]

/-- The steps that are left: eight for each request in the queue. -/
def State.left (s : State ω) : ℕ :=
  if s.exited then 0 else 8 * s.queue.length + ∑ w, (s.workers w).pc.left

theorem left_step (hexited : s.exited = false) (hframe : ∀ v ≠ w, s'.workers v = s.workers v)
    (hexited' : s'.exited = s.exited)
    (hcost : 8 * s.queue.length + (s.workers w).pc.left =
      8 * s'.queue.length + (s'.workers w).pc.left + 1) :
    s.left = s'.left + 1 := by
  have hsum := sum_step (f := fun v => (s.workers v).pc.left)
    (g := fun v => (s'.workers v).pc.left) w fun v hv => by rw [hframe v hv]
  unfold State.left
  rw [hexited', hexited]
  simp only [Bool.false_eq_true, if_false]
  omega

/-- **Every step is one step less**, or the client exits because a file is missing. -/
theorem Move.left (h : Move E s w s') (hQ : Queue s) (hexited : s.exited = false) :
    ((s.workers w).pc = .read ∧ s'.exited = true) ∨
      (s'.exited = false ∧ s.left = s'.left + 1) := by
  have hmove := h
  have hsafe := hQ.safe.pop w
  cases h with
  | underflow hp hq => exact absurd hq (hsafe hp)
  | missing hp => exact .inl ⟨hp, rfl⟩
  | test hp =>
      refine .inr ⟨hexited, left_step hexited hmove.frame rfl ?_⟩
      by_cases hq : s.queue.isEmpty = true
      · rw [if_pos hq]
        simp [State.goto, State.setWorker, hp, Pc.left]
      · rw [if_neg hq]
        simp [State.goto, State.setWorker, hp, Pc.left]
  | take hp hn =>
      refine .inr ⟨hexited, left_step hexited hmove.frame rfl ?_⟩
      rcases hp with hp | hp <;> simp [State.goto, State.setWorker, hp, Pc.left]
  | pop i q hp hq =>
      refine .inr ⟨hexited, left_step hexited hmove.frame rfl ?_⟩
      simp [State.setWorker, hp, hq, Pc.left]
      omega
  | unlock hp | read i bytes hp hi | minify hp | write i hp hi | free hp | leave hp =>
      refine .inr ⟨hexited, left_step hexited hmove.frame rfl ?_⟩
      simp [State.goto, State.setWorker, hp, Pc.left]

/-- If the step reads a file, the file can be opened. -/
def Opens (s : State ω) (a : ω × Option (List Byte)) : Prop :=
  (s.workers a.1).pc = .read → a.2.isSome = true

instance (s : State ω) (a : ω × Option (List Byte)) : Decidable (Opens s a) :=
  inferInstanceAs (Decidable (_ → _))

theorem lowers_left (E : Env) : Lowers (step E) Any (init ω E) State.left := by
  intro s a s' hr _ hs
  have hexited : s.exited = false := by
    unfold step at hs
    exact Bool.eq_false_iff.mpr (Option.ite_none_left_eq_some.mp hs).1
  obtain ⟨hp, hexited'⟩ | ⟨_, hleft⟩ := (step_move hs).left (Reachable.queue hr) hexited
  · have hw := Finset.single_le_sum (fun v _ => Nat.zero_le (s.workers v).pc.left)
      (Finset.mem_univ a.1)
    rw [hp, Pc.left] at hw
    simp only [State.left, hexited, hexited', if_true, Bool.false_eq_true, if_false]
    omega
  · omega

theorem step_opens {a : ω × Option (List Byte)} (hr : Reachable E s) (ha : Opens s a)
    (hs : step E s a = some s') : s'.exited = false ∧ s.left = s'.left + 1 := by
  have hstep := hs
  unfold step at hs
  obtain ⟨hexited, hs⟩ := Option.ite_none_left_eq_some.mp hs
  obtain ⟨hp, hexited'⟩ | h :=
    (step_move hstep).left (Reachable.queue hr) (Bool.eq_false_iff.mpr hexited)
  · unfold workerStep at hs
    simp only [hp, Option.map_eq_some_iff] at hs
    obtain ⟨i, _, rfl⟩ := hs
    obtain ⟨bytes, hbytes⟩ := Option.isSome_iff_exists.mp (ha hp)
    rw [hbytes] at hexited'
    exact absurd hexited' hexited
  · exact h

omit [DecidableEq ω] in
theorem left_init (E : Env) :
    (init ω E).left = 8 * E.requests.length + 3 * Fintype.card ω := by
  unfold State.left
  simp [init, Pc.left, Nat.mul_comm]

omit [Fintype ω] in
theorem Reachable.of_opens (h : Reach (step E) Opens (init ω E) s) : Reachable E s :=
  h.imp fun _ _ _ _ => trivial

/-- A run whose files can be opened: the client has not exited. -/
theorem exited_of_opens (h : Reach (step E) Opens (init ω E) s) : s.exited = false := by
  apply h.invariant_of (I := fun t => t.exited = false) (fun t ht => ht) rfl
  intro t a t' ht _ ha hs
  exact (step_opens (Reachable.of_opens ht) ha hs).1

theorem spends_left (E : Env) : Spends (step E) Opens (init ω E) State.left :=
  fun _ _ _ hr ha hs => (step_opens (Reachable.of_opens hr) ha hs).2

theorem returned_iff [Nonempty ω] (hr : Reachable E s) (hexited : s.exited = false) :
    (∀ w, (s.workers w).pc = .returned) ↔ s.left = 0 := by
  unfold State.left
  simp only [hexited, Bool.false_eq_true, if_false, Nat.add_eq_zero_iff, Nat.mul_eq_zero,
    List.length_eq_zero_iff, Finset.sum_eq_zero_iff, Finset.mem_univ, forall_true_left]
  constructor
  · intro hret
    obtain ⟨w⟩ := ‹Nonempty ω›
    have hqueue := Reachable.drained hr w (by rw [hret w]; rfl)
    exact ⟨.inr hqueue, fun v => by rw [hret v]; rfl⟩
  · rintro ⟨_, hleft⟩ w
    have hw := hleft w
    cases hp : (s.workers w).pc with
    | returned => rfl
    | _ => simp [hp, Pc.left] at hw

/-- **The minify client ends**: for any workload, at least one worker and any interleaving, no run
is longer than eight steps for each request and three for each worker; a run that cannot be
continued is one in which the client has exited or all workers have returned.  As long as the input
files can be opened the client does not exit, the runs in which all workers have returned are those
of this length, and every run can be continued to one. -/
theorem minify_ends [Nonempty ω] (E : Env) (as : List (ω × Option (List Byte))) (s : State ω)
    (h : exec (step E) (init ω E) as = some s) :
    as.length ≤ 8 * E.requests.length + 3 * Fintype.card ω ∧
    ((∀ a, step E s a = none) ↔ s.exited = true ∨ ∀ w, (s.workers w).pc = .returned) ∧
    (Along (step E) Opens (init ω E) as → s.exited = false ∧
      ((∀ w, (s.workers w).pc = .returned) ↔
        as.length = 8 * E.requests.length + 3 * Fintype.card ω) ∧
      ∃ bs t, exec (step E) s bs = some t ∧ Along (step E) Opens s bs ∧
        ∀ w, (t.workers w).pc = .returned) := by
  have hr : Reachable E s := reach_of_exec as h
  refine ⟨?_, ⟨fun hstuck => ?_, ?_⟩, fun hok => ?_⟩
  · have hle := (lowers_left E).length_le .refl as h (along_any _ _)
    rw [left_init] at hle
    omega
  · by_cases hexited : s.exited = true
    · exact .inl hexited
    · apply Or.inr
      apply returned_of_stuck hr
      intro w
      have hw := hstuck (w, some [])
      rwa [step, if_neg hexited] at hw
  · rintro (hexited | hret) a
    · rw [step, if_pos hexited]
    · simp [step, workerStep, hret a.1]
  · have hr' : Reach (step E) Opens (init ω E) s := reach_of_along as h hok
    have hlength := (spends_left E).length_eq .refl as h hok
    rw [left_init] at hlength
    refine ⟨exited_of_opens hr', ?_, ?_⟩
    · rw [returned_iff hr (exited_of_opens hr')]
      omega
    · obtain ⟨bs, t, hbs, hok, hstuck⟩ := (spends_left E).lowers.exists_stuck hr'
      have ht := hr'.trans (reach_of_along bs hbs hok)
      refine ⟨bs, t, hbs, hok, returned_of_stuck (Reachable.of_opens ht) fun w => ?_⟩
      have hw := hstuck (w, some []) fun _ => rfl
      rwa [step, exited_of_opens ht, if_neg Bool.false_ne_true] at hw

theorem minify_ends_two : twoRun.length = 8 * 2 + 3 * 2 := by
  have h : exec (step twoRequests) (init Bool twoRequests) twoRun = some twoEnd := rfl
  have hret : ∀ w, (twoEnd.workers w).pc = .returned := by decide +kernel
  have hok : Along (step twoRequests) Opens (init Bool twoRequests) twoRun :=
    along_of_execOk twoRun (by decide +kernel)
  exact ((minify_ends twoRequests twoRun twoEnd h).2.2 hok).2.1.mp hret

end fintype

end OsProjects.MinifyClient
