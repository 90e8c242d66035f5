import Mathlib.Logic.Function.Basic

/-! # Mutexes and condition variables

One mutex is the thread that holds it (`Option τ`).  The loop

    lock(m); while (!ok) cond_wait(c, m);

is cut into its atomic steps: taking the mutex (`lock`), testing the predicate (`test`), the
call of `cond_wait` after a failed test (`sleep`, which releases the mutex and puts the thread
to sleep in one step), sleeping (`asleep`, left only by a wakeup), and taking the mutex again
(`woken`).  Between `test` and `sleep` the thread holds the mutex but is not yet asleep, so a
signal sent there does not reach it.

`Mode.guarded` is the coarser reading of the same loop: one step that takes the mutex when it
is free and the predicate holds. -/

namespace OsProjects.Monitor

variable {τ : Type*}

/-- How a waiting loop is run. -/
inductive Mode where
  | pthread
  | guarded
deriving DecidableEq, Repr

/-- Program points of a waiting loop. -/
inductive Wait where
  | lock
  | test
  | sleep
  | asleep
  | woken
deriving DecidableEq, Repr

/-- What a step does to the mutex. -/
inductive MutexOp where
  | keep
  | take
  | drop
deriving DecidableEq, Repr

/-- The holder of the mutex after a step of thread `t`. -/
def MutexOp.apply (t : τ) : MutexOp → Option τ → Option τ
  | keep, m => m
  | take, _ => some t
  | drop, _ => none

@[simp] theorem MutexOp.apply_keep (t : τ) (m : Option τ) : keep.apply t m = m := rfl
@[simp] theorem MutexOp.apply_take (t : τ) (m : Option τ) : take.apply t m = some t := rfl
@[simp] theorem MutexOp.apply_drop (t : τ) (m : Option τ) : drop.apply t m = none := rfl

namespace Wait

/-- One step of the loop, from whether the mutex is free and whether the predicate holds: what
happens to the mutex and the next program point, `none` when the loop is left. -/
def step (mode : Mode) (free ok : Bool) : Wait → Option (MutexOp × Option Wait)
  | lock =>
      match mode with
      | .pthread => if free then some (.take, some test) else none
      | .guarded => if free && ok then some (.take, none) else none
  | test => some (.keep, if ok then none else some sleep)
  | sleep => some (.drop, some asleep)
  | asleep => none
  | woken => if free then some (.take, some test) else none

/-- The effect of a signal or a broadcast on the condition variable of the loop. -/
def wake : Wait → Wait
  | asleep => woken
  | w => w

/-- The thread holds the mutex at this point. -/
def holds : Wait → Bool
  | test | sleep => true
  | _ => false

/-- The thread has failed its test, or sleeps: only a wakeup lets it test again. -/
def drowsy : Wait → Bool
  | sleep | asleep => true
  | _ => false

@[simp] theorem holds_wake (w : Wait) : w.wake.holds = w.holds := by cases w <;> rfl

/-- A wakeup misses only a thread that has not fallen asleep yet. -/
theorem eq_sleep_of_wake {w : Wait} (h : w.wake.drowsy) : w = sleep := by
  cases w <;> simp_all [wake, drowsy]

theorem step_cases {mode : Mode} {free ok : Bool} {w : Wait} {op : MutexOp} {w' : Option Wait}
    (h : w.step mode free ok = some (op, w')) :
    (w = lock ∧ mode = .pthread ∧ free = true ∧ op = .take ∧ w' = some test) ∨
    (w = lock ∧ mode = .guarded ∧ free = true ∧ ok = true ∧ op = .take ∧ w' = none) ∨
    (w = test ∧ ok = true ∧ op = .keep ∧ w' = none) ∨
    (w = test ∧ ok = false ∧ op = .keep ∧ w' = some sleep) ∨
    (w = sleep ∧ op = .drop ∧ w' = some asleep) ∨
    (w = woken ∧ free = true ∧ op = .take ∧ w' = some test) := by
  cases w <;> cases mode <;> cases free <;> cases ok <;> simp_all [step]

/-- The loop is left with the predicate true. -/
theorem ok_of_step_none {mode : Mode} {free ok : Bool} {w : Wait} {op : MutexOp}
    (h : w.step mode free ok = some (op, none)) : ok = true := by
  rcases step_cases h with ⟨_, _, _, _, hn⟩ | ⟨_, _, _, ho, _⟩ | ⟨_, ho, _⟩ | ⟨_, _, _, hn⟩ |
    ⟨_, _, hn⟩ | ⟨_, _, _, hn⟩
  · cases hn
  · exact ho
  · exact ho
  · cases hn
  · cases hn
  · cases hn

theorem left_of_guarded {free ok : Bool} {op : MutexOp} {q : Option Wait}
    (h : lock.step .guarded free ok = some (op, q)) : q = none := by
  cases free <;> cases ok <;> simp_all [step]

/-- A thread is about to sleep right after a failed test. -/
theorem failed_of_step_sleep {mode : Mode} {free ok : Bool} {w : Wait} {op : MutexOp}
    (h : w.step mode free ok = some (op, some sleep)) : ok = false := by
  cases w <;> cases mode <;> cases free <;> cases ok <;> simp_all [step]

/-- A thread falls asleep where it is about to. -/
theorem eq_sleep_of_step_asleep {mode : Mode} {free ok : Bool} {w : Wait} {op : MutexOp}
    (h : w.step mode free ok = some (op, some asleep)) : w = sleep := by
  cases w <;> cases mode <;> cases free <;> cases ok <;> simp_all [step]

/-- A thread becomes drowsy only by a failed test. -/
theorem drowsy_of_step {mode : Mode} {free ok : Bool} {w w' : Wait} {op : MutexOp}
    (h : w.step mode free ok = some (op, some w')) (hw' : w'.drowsy) : w.drowsy ∨ ok = false := by
  rcases step_cases h with ⟨_, _, _, _, hn⟩ | ⟨_, _, _, _, _, hn⟩ | ⟨_, _, _, hn⟩ |
    ⟨_, ho, _, _⟩ | ⟨rfl, _, _⟩ | ⟨_, _, _, hn⟩
  · cases hn
    cases hw'
  · cases hn
  · cases hn
  · exact .inr ho
  · exact .inl rfl
  · cases hn
    cases hw'

/-- The steps of the loop before it is left or the thread sleeps, if no test fails. -/
def left : Wait → Nat
  | lock | woken => 3
  | test => 2
  | sleep => 1
  | asleep => 0

theorem left_wake (w : Wait) : w.wake.left ≤ w.left + 3 := by cases w <;> simp [wake, left]

theorem left_of_step {mode : Mode} {free ok : Bool} {w : Wait} {op : MutexOp} {w' : Option Wait}
    (h : w.step mode free ok = some (op, w')) : w'.elim 1 left < w.left := by
  rcases step_cases h with ⟨rfl, _, _, _, rfl⟩ | ⟨rfl, _, _, _, _, rfl⟩ | ⟨rfl, _, _, rfl⟩ |
    ⟨rfl, _, _, rfl⟩ | ⟨rfl, _, rfl⟩ | ⟨rfl, _, _, rfl⟩ <;> decide

/-- Awake, a thread can step, unless it waits for the mutex. -/
theorem step_isSome {free ok : Bool} {w : Wait} (hw : w ≠ asleep)
    (hfree : free = true ∨ w.holds = true) : (w.step .pthread free ok).isSome = true := by
  cases w with
  | asleep => exact absurd rfl hw
  | test | sleep => rfl
  | lock | woken =>
      rw [hfree.resolve_right Bool.false_ne_true]
      rfl

end Wait

/-! ### Families of mutexes -/

section holds
variable {μ : Type*} [DecidableEq μ] {f : μ → Option τ} {t u : τ} {m : μ} {h : Option μ}

/-- Of the mutexes `f`, thread `t` holds `h` and no other. -/
def Holds (f : μ → Option τ) (t : τ) (h : Option μ) : Prop := ∀ k, f k = some t ↔ h = some k

omit [DecidableEq μ] in
theorem Holds.ne_of_none (hf : Holds f t none) (k : μ) : f k ≠ some t := by
  rw [Ne, hf k]
  simp

theorem Holds.take (hf : Holds f t none) : Holds (Function.update f m (some t)) t (some m) := by
  intro k
  rcases eq_or_ne k m with rfl | hk
  · simp
  · rw [Function.update_of_ne hk, hf k]
    simp [hk.symm]

theorem Holds.drop (hf : Holds f t (some m)) : Holds (Function.update f m none) t none := by
  intro k
  rcases eq_or_ne k m with rfl | hk
  · simp
  · rw [Function.update_of_ne hk, hf k]
    simp [hk.symm]

/-- Taking or dropping a mutex that another thread does not hold. -/
theorem Holds.update_other (hf : Holds f u h) (hm : f m ≠ some u) {v : Option τ}
    (hv : v ≠ some u) : Holds (Function.update f m v) u h := by
  intro k
  rcases eq_or_ne k m with rfl | hk
  · rw [Function.update_self, ← hf k]
    simp [hv, hm]
  · rw [Function.update_of_ne hk, hf k]

/-- The mutex of a waiting loop that the thread holds at a point of the loop. -/
def Wait.held (m : μ) (w : Wait) : Option μ := if w.holds then some m else none

omit [DecidableEq μ] in
@[simp] theorem Wait.held_wake (m : μ) (w : Wait) : w.wake.held m = w.held m := by
  simp [Wait.held]

/-- The thread in the loop keeps track of its mutex; it holds it when it leaves the loop. -/
theorem Holds.wait {mode : Mode} {ok : Bool} {w : Wait} {op : MutexOp} {q : Option Wait}
    (hf : Holds f t (w.held m)) (hs : w.step mode (f m).isNone ok = some (op, q)) :
    Holds (Function.update f m (op.apply t (f m))) t (q.elim (some m) (Wait.held m)) := by
  rcases Wait.step_cases hs with ⟨rfl, _, _, rfl, rfl⟩ | ⟨rfl, _, _, _, rfl, rfl⟩ |
    ⟨rfl, _, rfl, rfl⟩ | ⟨rfl, _, rfl, rfl⟩ | ⟨rfl, rfl, rfl⟩ | ⟨rfl, _, rfl, rfl⟩
  · exact hf.take
  · exact hf.take
  · rw [MutexOp.apply_keep, Function.update_eq_self]
    exact hf
  · rw [MutexOp.apply_keep, Function.update_eq_self]
    exact hf
  · exact hf.drop
  · exact hf.take

theorem Holds.wait_other {mode : Mode} {ok : Bool} {w : Wait} {op : MutexOp} {q : Option Wait}
    (hf : Holds f u h) (htu : t ≠ u) (ht : Holds f t (w.held m))
    (hs : w.step mode (f m).isNone ok = some (op, q)) :
    Holds (Function.update f m (op.apply t (f m))) u h := by
  have hut : some t ≠ some u := by simpa using htu
  rcases Wait.step_cases hs with ⟨rfl, _, hn, rfl, rfl⟩ | ⟨rfl, _, hn, _, rfl, rfl⟩ |
    ⟨rfl, _, rfl, rfl⟩ | ⟨rfl, _, rfl, rfl⟩ | ⟨rfl, rfl, rfl⟩ | ⟨rfl, hn, rfl, rfl⟩
  · exact hf.update_other (by simp [Option.isNone_iff_eq_none.mp hn]) hut
  · exact hf.update_other (by simp [Option.isNone_iff_eq_none.mp hn]) hut
  · simpa using hf
  · simpa using hf
  · have hm : f m = some t := (ht m).mpr rfl
    exact hf.update_other (by rw [hm]; exact hut) (by simp)
  · exact hf.update_other (by simp [Option.isNone_iff_eq_none.mp hn]) hut

end holds

/-! ### One mutex among many threads -/

section heldBy
variable {m : Option τ} {h : τ → Bool} {t : τ}

/-- The mutex `m` is held by the thread that `h` says, and by nobody if `h` says nobody. -/
def HeldBy (m : Option τ) (h : τ → Bool) : Prop := ∀ t, m = some t ↔ h t = true

theorem HeldBy.unique {u : τ} (hm : HeldBy m h) (ht : h t = true) (hu : h u = true) : t = u :=
  Option.some.inj (((hm t).mpr ht).symm.trans ((hm u).mpr hu))

variable [DecidableEq τ]

theorem HeldBy.take (hm : HeldBy m h) (hn : m = none) :
    HeldBy (some t) (Function.update h t true) := by
  intro u
  rcases eq_or_ne u t with rfl | hu
  · simp
  · have := hm u
    simp only [hn] at this
    simpa [hu, hu.symm] using this

theorem HeldBy.drop (hm : HeldBy m h) (ht : h t = true) :
    HeldBy none (Function.update h t false) := by
  intro u
  rcases eq_or_ne u t with rfl | hu
  · simp
  · rw [Function.update_of_ne hu]
    simp only [reduceCtorEq, false_iff]
    intro hu'
    exact hu (hm.unique hu' ht)

theorem HeldBy.keep {b : Bool} (hm : HeldBy m h) (ht : h t = b) :
    HeldBy m (Function.update h t b) := by
  rw [← ht, Function.update_eq_self]
  exact hm

/-- A step of a waiting loop; the thread holds the mutex when it leaves the loop. -/
theorem HeldBy.wait {mode : Mode} {ok : Bool} {w : Wait} {op : MutexOp} {q : Option Wait}
    (hm : HeldBy m h) (ht : h t = w.holds) (hs : w.step mode m.isNone ok = some (op, q)) :
    HeldBy (op.apply t m) (Function.update h t (q.elim true Wait.holds)) := by
  rcases Wait.step_cases hs with ⟨rfl, _, hn, rfl, rfl⟩ | ⟨rfl, _, hn, _, rfl, rfl⟩ |
    ⟨rfl, _, rfl, rfl⟩ | ⟨rfl, _, rfl, rfl⟩ | ⟨rfl, rfl, rfl⟩ | ⟨rfl, hn, rfl, rfl⟩
  · exact hm.take (Option.isNone_iff_eq_none.mp hn)
  · exact hm.take (Option.isNone_iff_eq_none.mp hn)
  · exact hm.keep ht
  · exact hm.keep ht
  · exact hm.drop ht
  · exact hm.take (Option.isNone_iff_eq_none.mp hn)

end heldBy

end OsProjects.Monitor
