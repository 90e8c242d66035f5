import OsProjects.RequestHandover

/-! # Requests are read as a whole

What the workers of `simplecached` read through their pointers, whatever the values: the path, the
name of the segment and its size.

* `Served` — a request that has been taken is being served by the worker that took it, or this
  worker has read all of its fields.
* `Reachable.served` — in every reachable state. -/

namespace OsProjects.Simplecached

open Transition

variable {ω : Type*} {s s' : State ω} {w : ω} {ok : Bool} {m : Option Msg}
  {uses uses' : List (ω × ℕ × Use)} {t n : ℕ}

/-- The fields in the order in which a worker first reads them. -/
def Use.field : Use → ℕ
  | path _ => 1
  | fldes _ => 2
  | segmentSize _ => 3

/-- How many fields of its request a worker has read on the way to this point. -/
def WorkerPc.fields : WorkerPc → ℕ
  | shmOpen => 1
  | ftruncate => 2
  | mmap | serve | munmap => 3
  | _ => 0

/-- The worker has read the first `n` fields through the pointer for ticket `t`. -/
def ReadBy (uses : List (ω × ℕ × Use)) (w : ω) (t n : ℕ) : Prop :=
  ∀ i, 0 < i → i ≤ n → ∃ u : Use, (w, t, u) ∈ uses ∧ u.field = i

/-- A request that has been taken is being served, or all of it has been read. -/
def Served (s : State ω) : Prop :=
  ∀ w t, (w, t) ∈ s.taken →
    ((s.workers w).pc.busy = true ∧ (s.workers w).msg = t ∧
      ReadBy s.uses w t (s.workers w).pc.fields) ∨ ReadBy s.uses w t 3

@[simp] theorem WorkerPc.fields_wake (p : WorkerPc) : p.wake.fields = p.fields := by
  cases p <;> rfl

theorem ReadBy.mono (h : ReadBy uses w t n) (huses : uses ⊆ uses') : ReadBy uses' w t n := by
  intro i hi hn
  obtain ⟨u, hu, hfield⟩ := h i hi hn
  exact ⟨u, huses hu, hfield⟩

/-- One more field is read, or one that has been read before. -/
theorem ReadBy.use (h : ReadBy uses w t n) (u : Use) {k : ℕ}
    (hk : k ≤ n ∨ k = n + 1 ∧ u.field = k) : ReadBy (uses ++ [(w, t, u)]) w t k := by
  intro i hi hik
  by_cases hn : i ≤ n
  · exact h.mono (List.subset_append_left _ _) i hi hn
  · obtain hk | ⟨rfl, hfield⟩ := hk
    · omega
    · exact ⟨u, List.mem_append_right _ (List.mem_singleton_self _), by omega⟩

/-- The requests that other workers have taken, and those that `w` has finished, stay as they are;
`w` goes on with its request, or has read all of it. -/
theorem Served.move (hS : Served s) (hframe : ∀ v ≠ w, s'.workers v = s.workers v)
    (htaken : s'.taken = s.taken) (huses : s.uses ⊆ s'.uses)
    (hw : (s.workers w).pc.busy = true →
      ReadBy s.uses w (s.workers w).msg (s.workers w).pc.fields →
        ((s'.workers w).pc.busy = true ∧ (s'.workers w).msg = (s.workers w).msg ∧
          ReadBy s'.uses w (s.workers w).msg (s'.workers w).pc.fields) ∨
        ReadBy s'.uses w (s.workers w).msg 3) : Served s' := by
  intro v t hv
  rw [htaken] at hv
  obtain ⟨hbusy, hmsg, hread⟩ | hread := hS v t hv
  · by_cases hvw : v = w
    · subst hvw hmsg
      exact hw hbusy hread
    · rw [hframe v hvw]
      exact .inl ⟨hbusy, hmsg, hread.mono huses⟩
  · exact .inr (hread.mono huses)

theorem Served.mainStep (hS : Served s) (h : mainStep s m = some s') : Served s' := by
  unfold Simplecached.mainStep at h
  cases hp : s.main with
  | receive =>
      simp only [hp] at h
      cases m <;> obtain rfl := Option.some.inj h <;> exact hS
  | waitRoom p =>
      simp only [hp, Option.map_eq_some_iff] at h
      obtain ⟨_, _, rfl⟩ := h
      exact hS
  | broadcast =>
      simp only [hp, Option.some.injEq] at h
      subst h
      intro w t hw
      simpa using hS w t hw
  | enqueue | increment | unlock =>
      simp only [hp, Option.some.injEq] at h
      subst h
      exact hS

variable [DecidableEq ω]

theorem Served.setPc (hS : Served s) {next : WorkerPc}
    (hbusy : (s.workers w).pc.busy = true → next.busy = true)
    (hfields : next.fields ≤ (s.workers w).pc.fields) :
    Served (s.setWorker w { s.workers w with pc := next }) := by
  refine hS.move (fun v hv => setWorker_of_ne s _ hv) rfl (List.Subset.refl _) fun hb hread => ?_
  left
  rw [setWorker_self]
  exact ⟨hbusy hb, rfl, fun i hi hn => hread i hi (hn.trans hfields)⟩

theorem Served.use (hS : Served s) (u : Use) {next : WorkerPc}
    (hbusy : next.busy = true ∨ (s.workers w).pc.fields = 3)
    (hfields : next.fields ≤ (s.workers w).pc.fields ∨
      next.fields = (s.workers w).pc.fields + 1 ∧ u.field = next.fields) :
    Served (s.use w u next) := by
  refine hS.move (fun v hv => setWorker_of_ne s _ hv) rfl (List.subset_append_left _ _)
    fun _ hread => ?_
  have hworker : (s.use w u next).workers w = { s.workers w with pc := next } :=
    setWorker_self s w _
  rw [hworker]
  obtain hbusy | hall := hbusy
  · exact .inl ⟨hbusy, rfl, hread.use u hfields⟩
  · rw [hall] at hread
    exact .inr (hread.use u (.inl (le_refl 3)))

/-- A worker takes a request, of which it has read nothing. -/
theorem Served.pop (hS : Served s) (hp : (s.workers w).pc.busy = false) (t : ℕ) (q : List ℕ) :
    Served { s.setWorker w ⟨.decrement, t⟩ with
      mqDataQueue := q
      taken := s.taken ++ [(w, t)] } := by
  intro v t' hv
  obtain hv | hv := List.mem_append.mp hv
  · obtain ⟨hbusy, hmsg, hread⟩ | hread := hS v t' hv
    · have hvw : v ≠ w := by
        rintro rfl
        rw [hp] at hbusy
        cases hbusy
      have hframe := setWorker_of_ne s ⟨.decrement, t⟩ hvw
      dsimp only
      rw [hframe]
      exact .inl ⟨hbusy, hmsg, hread⟩
    · exact .inr hread
  · obtain ⟨rfl, rfl⟩ := Prod.mk.inj (List.mem_singleton.mp hv)
    have hself := setWorker_self s v ⟨.decrement, t'⟩
    dsimp only
    rw [hself]
    exact .inl ⟨rfl, rfl, fun i hi hn => absurd hn (Nat.not_le.mpr hi)⟩

theorem Served.workerStep (hS : Served s) (h : workerStep s w ok = some s') : Served s' := by
  unfold Simplecached.workerStep at h
  cases hp : (s.workers w).pc with
  | waitRequest p =>
      simp only [hp, Option.map_eq_some_iff] at h
      obtain ⟨⟨_, q⟩, _, rfl⟩ := h
      exact hS.setPc (by simp [hp, WorkerPc.busy]) (by cases q <;> simp [WorkerPc.fields])
  | pop =>
      simp only [hp] at h
      split at h <;> obtain rfl := Option.some.inj h
      · exact hS
      · exact hS.pop (by rw [hp]; rfl) _ _
  | decrement | unlock | signal =>
      simp only [hp, Option.some.injEq] at h
      subst h
      exact hS.setPc (fun _ => rfl) (Nat.zero_le _)
  | get =>
      simp only [hp, Option.some.injEq] at h
      subst h
      exact hS.use _ (.inl rfl) (.inr (by rw [hp]; exact ⟨rfl, rfl⟩))
  | shmOpen =>
      simp only [hp, Option.some.injEq] at h
      subst h
      cases ok with
      | true => exact hS.use _ (.inl rfl) (.inr (by rw [hp]; exact ⟨rfl, rfl⟩))
      | false => exact hS.use _ (.inl rfl) (.inl (by rw [hp]; exact le_refl 1))
  | ftruncate =>
      simp only [hp, Option.some.injEq] at h
      subst h
      exact hS.use _ (.inl rfl) (.inr (by rw [hp]; exact ⟨rfl, rfl⟩))
  | mmap =>
      have hnext : Served (s.use w (.segmentSize s.data.segmentSize) .serve) :=
        hS.use _ (.inl rfl) (.inl (by rw [hp]; exact le_refl 3))
      simp only [hp] at h
      split at h <;> obtain rfl := Option.some.inj h <;> exact hnext
  | serve =>
      simp only [hp] at h
      split at h <;> obtain rfl := Option.some.inj h
      · exact hS.use _ (.inl rfl) (.inl (by rw [hp]))
      · exact hS.setPc (fun _ => rfl) (by rw [hp]; exact le_refl 3)
  | munmap =>
      have hnext : Served (s.use w (.segmentSize s.data.segmentSize) (.waitRequest .lock)) :=
        hS.use _ (.inr (by rw [hp]; rfl)) (.inl (Nat.zero_le _))
      simp only [hp] at h
      split at h <;> obtain rfl := Option.some.inj h <;> exact hnext

theorem Served.step {a : Act ω} (hS : Served s) (h : step s a = some s') : Served s' := by
  unfold Simplecached.step at h
  replace h := (Option.ite_none_left_eq_some.mp h).2
  cases a with
  | main m => exact hS.mainStep h
  | worker w ok => exact hS.workerStep h
  | spuriousMain =>
      obtain rfl := Option.some.inj h
      exact hS
  | spuriousWorker w =>
      obtain rfl := Option.some.inj h
      exact hS.setPc (by simp) (by simp)

theorem Reachable.served {ok : State ω → Act ω → Prop} (h : Reachable ok s) : Served s := by
  have hinit : Served (init ω) := fun w t ht => by cases ht
  exact h.invariant hinit fun _ _ _ hS _ hs => hS.step hs

omit [DecidableEq ω] in
/-- At the end, with no worker at a request, all fields of all requests have been read. -/
theorem Served.read (hS : Served s) {t : ℕ} (ht : (w, t) ∈ s.taken)
    (hidle : (s.workers w).pc.busy = false) : ReadBy s.uses w t 3 :=
  (hS w t ht).resolve_left fun h => by
    rw [hidle] at h
    cases h.1

end OsProjects.Simplecached
