import OsProjects.Guarded
import OsProjects.Transition
import Mathlib.Data.List.Nodup
import Mathlib.Data.List.Perm.Basic
import Mathlib.Data.List.Range
import Mathlib.Logic.Function.Basic

/-! # Concurrent calls of `workload_get_path`

`workload_get_path` of `proj1/multithreadgetfile/workload.c` in sequential mode, called by any
threads: `counter++` is a load and a store under `counter_mutex`, and `counter` is read once more,
without the mutex, for the index.  It is a natural number here; in C it is one up to 2³¹ calls.

* `Counted` — at every moment the counter is the number of calls that have returned, plus those
  that have incremented it and have not yet read it.
* `Ordered` — while no call increments the counter before the one that has done so last has read
  it, the calls read 1, 2, 3 and so on.
* `Skipped` — if a call does, one of these numbers is never read.
* `shared_evenly_iff` — the runs that share the paths evenly are those in which none does. -/

namespace OsProjects.WorkloadCalls

open Monitor Transition

variable {ω : Type*} [DecidableEq ω]

/-- Program points of a call; `idle` is between two calls. -/
inductive Pc where
  | idle
  | lock
  | load                        -- counter++: its value is read
  | store                       -- and written back, one greater
  | unlock
  | read                        -- gWorkloadPathArray[counter % gUniqueWorkloadPaths]
deriving DecidableEq, Repr

/-- A thread, with the value of `counter` that it has loaded. -/
structure Caller where
  pc : Pc
  loaded : ℕ
deriving DecidableEq, Repr

/-- A call that has returned: the value read, and the index of its path. -/
structure Return where
  value : ℕ
  index : ℕ
deriving DecidableEq, Repr

/-- `counter` and its mutex, the threads, and the calls that have returned. -/
structure State (ω : Type*) where
  counter : ℕ
  counterMutex : Option ω
  callers : ω → Caller
  returns : List Return

def init (ω : Type*) : State ω := ⟨0, none, fun _ => ⟨.idle, 0⟩, []⟩

def State.setCaller (s : State ω) (w : ω) (c : Caller) : State ω :=
  { s with callers := Function.update s.callers w c }

/-- Thread `w` goes on to `pc`. -/
def State.goto (s : State ω) (w : ω) (pc : Pc) : State ω :=
  s.setCaller w { s.callers w with pc := pc }

/-- One step of thread `w`, with `n` paths; there is no division by zero. -/
def step (n : ℕ) (s : State ω) (w : ω) : Option (State ω) :=
  match (s.callers w).pc with
  | .idle => some (s.goto w .lock)
  | .lock =>
      if s.counterMutex.isNone then some { s.goto w .load with counterMutex := some w } else none
  | .load => some (s.setCaller w ⟨.store, s.counter⟩)
  | .store => some { s.goto w .unlock with counter := (s.callers w).loaded + 1 }
  | .unlock => some { s.goto w .read with counterMutex := none }
  | .read =>
      if n = 0 then none
      else some { s.goto w .idle with returns := s.returns ++ [⟨s.counter, s.counter % n⟩] }

abbrev Reachable (n : ℕ) (ok : State ω → ω → Prop) (s : State ω) : Prop :=
  Reach (step n) ok (init ω) s

/-- No call is in progress. -/
def Quiet (s : State ω) : Prop := ∀ w, (s.callers w).pc = .idle

/-- The values read so far. -/
def State.values (s : State ω) : List ℕ := s.returns.map Return.value

/-- The calls have read each of the values from 1 on once, and have returned the paths there. -/
structure Even (n : ℕ) (s : State ω) : Prop where
  values : s.values.Perm (List.range' 1 s.returns.length)
  indices : (s.returns.map Return.index).Perm
    ((List.range' 1 s.returns.length).map fun value => value % n)

/-- If the step increments the counter, then no other call is about to read it. -/
def Timely (s : State ω) (w : ω) : Prop :=
  (s.callers w).pc = .store → ∀ v, (s.callers v).pc ≠ .read

/-! ### What a step can do -/

def Pc.holds : Pc → Bool
  | load | store | unlock => true
  | _ => false

/-- The call has incremented the counter and not yet read it. -/
def Pc.pending : Pc → Bool
  | unlock | read => true
  | _ => false

def State.holds (s : State ω) (w : ω) : Bool := (s.callers w).pc.holds

def State.pending (s : State ω) (w : ω) : Bool := (s.callers w).pc.pending

/-- What is loaded is the counter. -/
def State.Crit (s : State ω) (w : ω) : Prop :=
  (s.callers w).pc = .store → (s.callers w).loaded = s.counter

/-- The mutex guards the counter. -/
def Locked (s : State ω) : Prop := Guarded s.counterMutex s.holds True s.Crit

section step
variable {n : ℕ} {s s' : State ω} {v w : ω}

@[simp] theorem setCaller_self (s : State ω) (w : ω) (c : Caller) :
    (s.setCaller w c).callers w = c := by
  simp [State.setCaller]

theorem setCaller_of_ne (s : State ω) (c : Caller) (h : v ≠ w) :
    (s.setCaller w c).callers v = s.callers v := by
  simp [State.setCaller, h]

@[simp] theorem goto_pc (s : State ω) (w : ω) (pc : Pc) : ((s.goto w pc).callers w).pc = pc := by
  simp [State.goto]

/-- The moves of thread `w`. -/
inductive Move (n : ℕ) (s : State ω) (w : ω) : State ω → Prop
  | enter (hp : (s.callers w).pc = .idle) : Move n s w (s.goto w .lock)
  | take (hp : (s.callers w).pc = .lock) (hn : s.counterMutex = none) :
      Move n s w { s.goto w .load with counterMutex := some w }
  | load (hp : (s.callers w).pc = .load) : Move n s w (s.setCaller w ⟨.store, s.counter⟩)
  | store (hp : (s.callers w).pc = .store) :
      Move n s w { s.goto w .unlock with counter := (s.callers w).loaded + 1 }
  | unlock (hp : (s.callers w).pc = .unlock) :
      Move n s w { s.goto w .read with counterMutex := none }
  | read (hp : (s.callers w).pc = .read) :
      Move n s w { s.goto w .idle with returns := s.returns ++ [⟨s.counter, s.counter % n⟩] }

theorem step_move (h : step n s w = some s') : Move n s w s' := by
  unfold step at h
  cases hp : (s.callers w).pc with
  | idle =>
      simp only [hp, Option.some.injEq] at h
      exact h ▸ .enter hp
  | lock =>
      simp only [hp] at h
      obtain ⟨hn, h⟩ := Option.ite_none_right_eq_some.mp h
      obtain rfl := Option.some.inj h
      exact .take hp (Option.isNone_iff_eq_none.mp hn)
  | load =>
      simp only [hp, Option.some.injEq] at h
      exact h ▸ .load hp
  | store =>
      simp only [hp, Option.some.injEq] at h
      exact h ▸ .store hp
  | unlock =>
      simp only [hp, Option.some.injEq] at h
      exact h ▸ .unlock hp
  | read =>
      simp only [hp] at h
      obtain ⟨_, h⟩ := Option.ite_none_left_eq_some.mp h
      obtain rfl := Option.some.inj h
      exact .read hp

/-- The other threads do not notice a move. -/
theorem Move.frame (h : Move n s w s') : ∀ v ≠ w, s'.callers v = s.callers v := by
  intro v hv
  cases h <;> exact setCaller_of_ne s _ hv

theorem Move.holds_frame (h : Move n s w s') : ∀ v ≠ w, s'.holds v = s.holds v := by
  intro v hv
  rw [State.holds, h.frame v hv]
  rfl

theorem Move.pending_frame (h : Move n s w s') : ∀ v ≠ w, s'.pending v = s.pending v := by
  intro v hv
  rw [State.pending, h.frame v hv]
  rfl

/-! ### The mutex -/

theorem Locked.move (hL : Locked s) (h : Move n s w s') : Locked s' := by
  have hmove := h
  have hframe := h.holds_frame
  cases h with
  | enter hp | read hp =>
      refine Guarded.outside hL hframe (by simp [State.holds, hp, Pc.holds]) ?_ (fun _ => trivial)
        fun v hv _ hc hpc => ?_
      · rw [State.holds]
        exact congrArg Pc.holds (goto_pc s w _)
      · rw [hmove.frame v hv] at hpc ⊢
        exact hc hpc
  | take hp hn =>
      rw [Locked, hn] at hL
      refine Guarded.take hL hframe ?_ fun _ hpc => ?_
      · exact congrArg Pc.holds (goto_pc s w _)
      · simp [State.goto] at hpc
  | load hp =>
      refine Guarded.inside_step hL hframe (by simp [State.holds, hp, Pc.holds]) ?_ (fun _ _ => ?_)
        fun _ => trivial
      · simp [State.holds, Pc.holds, State.setCaller]
      · simp [State.setCaller]
  | store hp =>
      refine Guarded.inside_step hL hframe (by simp [State.holds, hp, Pc.holds]) ?_
        (fun _ hpc => ?_) fun _ => trivial
      · simp [State.holds, Pc.holds, State.goto, State.setCaller]
      · simp [State.goto] at hpc
  | unlock hp =>
      refine Guarded.inside_step hL hframe (by simp [State.holds, hp, Pc.holds]) ?_
        (fun _ hpc => ?_) fun _ => trivial
      · simp [State.holds, Pc.holds, State.goto, State.setCaller]
      · simp [State.goto] at hpc

omit [DecidableEq ω] in
theorem locked_init : Locked (init ω) where
  lock _ := iff_of_false (fun h => nomatch h) fun h => nomatch h
  free _ := trivial
  inside _ h := nomatch h

theorem Reachable.locked {ok : State ω → ω → Prop} (h : Reachable n ok s) : Locked s :=
  h.invariant locked_init fun _ _ _ hL _ hs => hL.move (step_move hs)

end step

/-! ### Counting the calls -/

section count
variable {n : ℕ} {s s' : State ω} {v w : ω}

/-- What a step does to the counter, to the calls about to read it and to those that have
returned. -/
inductive Count (n : ℕ) (s s' : State ω) (w : ω) : Prop
  | stay (hne : (s.callers w).pc ≠ .store) (hpending : s'.pending w = s.pending w)
      (hcounter : s'.counter = s.counter) (hreturns : s'.returns = s.returns)
  | increment (hp : (s.callers w).pc = .store) (hbefore : s.pending w = false)
      (hafter : s'.pending w = true) (hcounter : s'.counter = s.counter + 1)
      (hreturns : s'.returns = s.returns)
  | finish (hbefore : s.pending w = true) (hafter : s'.pending w = false)
      (hcounter : s'.counter = s.counter)
      (hreturns : s'.returns = s.returns ++ [⟨s.counter, s.counter % n⟩])

theorem Move.count (hL : Locked s) (h : Move n s w s') : Count n s s' w := by
  cases h with
  | enter hp | take hp _ | unlock hp =>
      refine .stay (by simp [hp]) ?_ rfl rfl
      simp [State.pending, State.goto, hp, Pc.pending]
  | load hp =>
      refine .stay (by simp [hp]) ?_ rfl rfl
      simp [State.pending, hp, Pc.pending]
  | store hp =>
      have hloaded : (s.callers w).loaded = s.counter :=
        hL.inside w (by simp [State.holds, hp, Pc.holds]) hp
      refine .increment hp ?_ ?_ (congrArg (· + 1) hloaded) rfl
      · rw [State.pending, hp]
        rfl
      · exact congrArg Pc.pending (goto_pc s w _)
  | read hp =>
      refine .finish ?_ ?_ rfl rfl
      · rw [State.pending, hp]
        rfl
      · exact congrArg Pc.pending (goto_pc s w _)

/-- The counter is the number of calls that have returned and of those about to read it. -/
def Counted (s : State ω) : Prop :=
  ∃ callers : List ω, callers.Nodup ∧ (∀ v, v ∈ callers ↔ s.pending v = true) ∧
    s.counter = s.returns.length + callers.length

omit [DecidableEq ω] in
theorem counted_init : Counted (init ω) := by
  refine ⟨[], List.nodup_nil, fun v => ?_, rfl⟩
  exact iff_of_false List.not_mem_nil Bool.false_ne_true

theorem Counted.move (hC : Counted s) (hL : Locked s) (h : Move n s w s') : Counted s' := by
  obtain ⟨callers, hnodup, hmem, hcount⟩ := hC
  have hframe := h.pending_frame
  cases h.count hL with
  | stay _ hpending hcounter hreturns =>
      refine ⟨callers, hnodup, fun v => ?_, by rw [hcounter, hreturns, hcount]⟩
      rw [hmem v]
      by_cases hv : v = w
      · rw [hv, hpending]
      · rw [hframe v hv]
  | increment _ hbefore hafter hcounter hreturns =>
      have hnew : w ∉ callers := by
        rw [hmem w, hbefore]
        exact Bool.false_ne_true
      refine ⟨w :: callers, List.nodup_cons.mpr ⟨hnew, hnodup⟩, fun v => ?_, ?_⟩
      · by_cases hv : v = w
        · rw [hv]
          exact iff_of_true List.mem_cons_self hafter
        · rw [hframe v hv, ← hmem v, List.mem_cons, or_iff_right hv]
      · rw [hcounter, hreturns, hcount, List.length_cons]
        omega
  | finish hbefore hafter hcounter hreturns =>
      have hold : w ∈ callers := (hmem w).mpr hbefore
      refine ⟨callers.erase w, hnodup.erase w, fun v => ?_, ?_⟩
      · rw [hnodup.mem_erase_iff]
        by_cases hv : v = w
        · rw [hv, hafter]
          exact iff_of_false (fun h => h.1 rfl) Bool.false_ne_true
        · rw [hframe v hv, ← hmem v, and_iff_right hv]
      · have hlength := List.length_erase_of_mem hold
        have hpos := List.length_pos_of_mem hold
        rw [hcounter, hreturns, hcount, List.length_append, List.length_singleton]
        omega

theorem Reachable.counted {ok : State ω → ω → Prop} (h : Reachable n ok s) : Counted s :=
  h.invariant_of (fun _ => Reachable.locked) counted_init fun _ _ _ hL hC _ hs =>
    hC.move hL (step_move hs)

omit [DecidableEq ω] in
/-- A call about to read the counter is not among those that have returned. -/
theorem Counted.lt (hC : Counted s) (hv : s.pending v = true) :
    s.returns.length < s.counter := by
  obtain ⟨callers, _, hmem, hcount⟩ := hC
  have hpos := List.length_pos_of_mem ((hmem v).mpr hv)
  omega

omit [DecidableEq ω] in
/-- One call is about to read the counter. -/
theorem Counted.one (hC : Counted s) (hw : s.pending w = true)
    (hunique : ∀ v, s.pending v = true → v = w) : s.counter = s.returns.length + 1 := by
  obtain ⟨callers, hnodup, hmem, hcount⟩ := hC
  have hall : callers = [w] := by
    refine List.perm_singleton.mp ((List.perm_ext_iff_of_nodup hnodup (List.nodup_singleton w)).mpr
      fun v => ?_)
    rw [hmem v, List.mem_singleton]
    exact ⟨hunique v, fun hv => hv ▸ hw⟩
  rw [hall] at hcount
  exact hcount

omit [DecidableEq ω] in
/-- No call is about to. -/
theorem Counted.none (hC : Counted s) (hq : Quiet s) : s.counter = s.returns.length := by
  obtain ⟨callers, _, hmem, hcount⟩ := hC
  have hempty : callers = [] := by
    apply List.eq_nil_iff_forall_not_mem.mpr
    intro v hv
    have hpending := (hmem v).mp hv
    rw [State.pending, hq v] at hpending
    cases hpending
  rw [hempty] at hcount
  exact hcount

end count

/-! ### Calls in order -/

section order
variable {n : ℕ} {s s' : State ω} {v w : ω}

/-- The calls have read 1, 2, 3 and so on, and at most one is about to go on. -/
structure Ordered (n : ℕ) (s : State ω) : Prop where
  values : s.values = List.range' 1 s.returns.length
  unique : ∀ v w, s.pending v = true → s.pending w = true → v = w

omit [DecidableEq ω] in
theorem ordered_init (n : ℕ) : Ordered n (init ω) where
  values := rfl
  unique _ _ h := nomatch h

omit [DecidableEq ω] in
/-- Nobody is about to read the counter when it is incremented in time. -/
theorem Timely.alone (ht : Timely s w) (hL : Locked s) (hp : (s.callers w).pc = .store) (v : ω) :
    s.pending v = false := by
  have hread := ht hp v
  have hw : s.holds w = true := by simp [State.holds, hp, Pc.holds]
  unfold State.pending
  cases hv : (s.callers v).pc with
  | read => exact absurd hv hread
  | unlock =>
      have heq := hL.lock.unique (t := v) (by simp [State.holds, hv, Pc.holds]) hw
      rw [heq, hp] at hv
      cases hv
  | _ => rfl

theorem Ordered.move (hO : Ordered n s) (hC : Counted s) (hL : Locked s) (ht : Timely s w)
    (h : Move n s w s') : Ordered n s' := by
  obtain ⟨hvalues, hunique⟩ := hO
  have hframe := h.pending_frame
  cases h.count hL with
  | stay _ hpending _ hreturns =>
      have hsame : ∀ u, s'.pending u = s.pending u := by
        intro u
        by_cases hu : u = w
        · rw [hu, hpending]
        · exact hframe u hu
      refine ⟨?_, fun u v hu hv => ?_⟩
      · rw [State.values, hreturns]
        exact hvalues
      · rw [hsame] at hu hv
        exact hunique u v hu hv
  | increment hp _ _ _ hreturns =>
      have hnone := ht.alone hL hp
      refine ⟨?_, fun u v hu hv => ?_⟩
      · rw [State.values, hreturns]
        exact hvalues
      · have hself : ∀ u, s'.pending u = true → u = w := by
          intro u hu
          by_contra hne
          rw [hframe u hne, hnone u] at hu
          cases hu
        rw [hself u hu, hself v hv]
  | finish hbefore hafter _ hreturns =>
      have hnext := hC.one hbefore fun v hv => hunique v w hv hbefore
      refine ⟨?_, fun u v hu hv => ?_⟩
      · rw [State.values, hreturns, List.map_append, List.length_append, List.length_singleton,
          List.range'_1_concat, List.map_singleton, hnext, Nat.add_comm 1]
        exact congrArg (· ++ [_]) hvalues
      · have hother : ∀ u, s'.pending u = true → s.pending u = true := by
          intro u hu
          by_cases hne : u = w
          · rw [hne]
            exact hbefore
          · rwa [hframe u hne] at hu
        exact hunique u v (hother u hu) (hother v hv)

/-- The index of a call is that of its value. -/
def Indexed (n : ℕ) (s : State ω) : Prop := ∀ r ∈ s.returns, r.index = r.value % n

theorem Indexed.move (hI : Indexed n s) (hL : Locked s) (h : Move n s w s') : Indexed n s' := by
  unfold Indexed
  cases h.count hL with
  | stay _ _ _ hreturns | increment _ _ _ _ hreturns =>
      rw [hreturns]
      exact hI
  | finish _ _ _ hreturns =>
      rw [hreturns]
      intro r hr
      obtain hr | hr := List.mem_append.mp hr
      · exact hI r hr
      · rw [List.mem_singleton.mp hr]

theorem Reachable.indexed {ok : State ω → ω → Prop} (h : Reachable n ok s) : Indexed n s :=
  h.invariant_of (fun _ => Reachable.locked) (List.forall_mem_nil _) fun _ _ _ hL hI _ hs =>
    hI.move hL (step_move hs)

theorem Reachable.ordered (h : Reachable n Timely s) : Ordered n s :=
  h.invariant_of (fun _ hr => And.intro (Reachable.locked hr) (Reachable.counted hr))
    (ordered_init n) fun _ _ _ hJ hO ht hs => hO.move hJ.2 hJ.1 ht (step_move hs)

omit [DecidableEq ω] in
theorem even_of_ordered (hO : Ordered n s) (hI : Indexed n s) : Even n s where
  values := List.Perm.of_eq hO.values
  indices := by
    rw [← hO.values, State.values, List.map_map]
    exact List.Perm.of_eq (List.map_congr_left hI)

end order

/-! ### Calls that overtake -/

section overtaking
variable {n : ℕ} {s s' : State ω} {v w : ω}

/-- Fewer than `c` calls have read a value up to `c`, and the counter has gone on. -/
def Skipped (s : State ω) : Prop :=
  ∃ c, c < s.counter ∧ (s.values.filter (· ≤ c)).length < c

/-- A call that increments the counter while another is about to read it. -/
theorem skipped_of_late (hC : Counted s) (hL : Locked s) (ht : ¬Timely s w)
    (h : Move n s w s') : Skipped s' := by
  unfold Timely at ht
  push Not at ht
  obtain ⟨hp, v, hv⟩ := ht
  have hlt := hC.lt (v := v) (by simp [State.pending, hv, Pc.pending])
  cases h.count hL with
  | increment _ _ _ hcounter hreturns =>
      refine ⟨s.counter, by omega, ?_⟩
      have hle := List.length_filter_le (· ≤ s.counter) s'.values
      rw [State.values, List.length_map, hreturns] at hle
      rw [State.values, hreturns]
      omega
  | stay hne => exact absurd hp hne
  | finish hbefore =>
      rw [State.pending, hp] at hbefore
      cases hbefore

theorem Skipped.move (hS : Skipped s) (hL : Locked s) (h : Move n s w s') : Skipped s' := by
  obtain ⟨c, hc, hfew⟩ := hS
  cases h.count hL with
  | stay _ _ hcounter hreturns =>
      refine ⟨c, by omega, ?_⟩
      rw [State.values, hreturns]
      exact hfew
  | increment _ _ _ hcounter hreturns =>
      refine ⟨c, by omega, ?_⟩
      rw [State.values, hreturns]
      exact hfew
  | finish _ _ hcounter hreturns =>
      refine ⟨c, by omega, ?_⟩
      rw [State.values, hreturns, List.map_append, List.filter_append, List.length_append]
      have hnone : ([⟨s.counter, s.counter % n⟩].map Return.value).filter (· ≤ c) = [] := by
        simpa using hc
      rw [hnone]
      exact hfew

omit [DecidableEq ω] in
/-- In the end a value is missing. -/
theorem Skipped.not_even (hS : Skipped s) (hC : Counted s) (hq : Quiet s) : ¬Even n s := by
  obtain ⟨c, hc, hfew⟩ := hS
  intro heven
  have hlength := (heven.values.filter (· ≤ c)).length_eq
  have hsplit : List.range' 1 s.returns.length =
      List.range' 1 c ++ List.range' (1 + c) (s.returns.length - c) := by
    rw [List.range'_append_1, ← hC.none hq]
    congr 1
    omega
  have hall : (List.range' 1 c).filter (· ≤ c) = List.range' 1 c := by
    apply List.filter_eq_self.mpr
    intro value hvalue
    have hmem := List.mem_range'_1.mp hvalue
    exact decide_eq_true (by omega)
  rw [hsplit, List.filter_append, hall, List.length_append, List.length_range'] at hlength
  omega

end overtaking

/-! ### Sharing evenly -/

/-- **The calls of a run share the paths evenly exactly if none of them increments the counter
while another one is about to read it.** -/
theorem shared_evenly_iff (n : ℕ) {s : State ω} (calls : List ω)
    (h : exec (step n) (init ω) calls = some s) (hq : Quiet s) :
    Even n s ↔ Along (step n) Timely (init ω) calls := by
  have hreach : Reachable n Any s := reach_of_exec calls h
  constructor
  · intro heven
    by_contra hlate
    obtain ⟨t, w, t', ht, hnot, hstep, htail⟩ := Reach.split_of_not_along calls .refl h hlate
    -- the value skipped at that step stays skipped to the end of the run
    have hskipped : Skipped s := by
      refine htail.invariant_of (J := Locked) (fun u hu => ?_) ?_ fun _ _ _ hL hS _ hs =>
        hS.move hL (step_move hs)
      · exact Reachable.locked ((ht.step trivial hstep).trans hu)
      · exact skipped_of_late (Reachable.counted ht) (Reachable.locked ht) hnot (step_move hstep)
    exact hskipped.not_even (Reachable.counted hreach) hq heven
  · intro htimely
    have hordered := Reachable.ordered (reach_of_along calls h htimely)
    exact even_of_ordered hordered (Reachable.indexed hreach)

/-- Two calls, one after the other. -/
def inTurn : List Bool :=
  [true, true, true, true, true, true, false, false, false, false, false, false]

/-- Two calls that both increment the counter before either reads it. -/
def overtaking : List Bool :=
  [true, true, true, true, true, false, false, false, false, false, true, false]

def final (n : ℕ) (calls : List Bool) : State Bool :=
  (exec (step n) (init Bool) calls).getD (init Bool)

theorem shared_evenly_iff_inTurn :
    Even 3 (final 3 inTurn) ↔ Along (step 3) Timely (init Bool) inTurn :=
  shared_evenly_iff 3 inTurn rfl (by unfold Quiet; decide)

/-- Two calls that overtake each other both return the path at index 2. -/
theorem not_shared_evenly : ¬∀ (n : ℕ) (s : State Bool), 1 ≤ n → Reachable n Any s → Quiet s →
    Even n s := by
  intro h
  have hquiet : Quiet (final 3 overtaking) := by
    unfold Quiet
    decide
  have heven := h 3 (final 3 overtaking) (by decide) (reach_of_exec overtaking rfl) hquiet
  have hvalues : (final 3 overtaking).values = [2, 2] := by decide
  have hmem : 1 ∈ (final 3 overtaking).values := heven.values.mem_iff.mpr (by decide)
  rw [hvalues] at hmem
  simp at hmem

end OsProjects.WorkloadCalls
