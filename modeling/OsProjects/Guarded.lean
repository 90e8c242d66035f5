import OsProjects.Monitor

/-! # Data guarded by a mutex

A mutex `m` with a thread's critical section given by `h` guards a condition on shared data:
`free` while nobody holds the mutex, and `inside t` at the present program point of the thread
`t` that holds it.  `Guarded` says so of one state, and a step of thread `t` keeps it in one of
three ways: `t` is outside before and after (`Guarded.outside`), `t` is in its critical section
(`Guarded.inside_step`), or `t` is in a waiting loop (`Guarded.wait`). -/

namespace OsProjects.Monitor

variable {τ : Type*} {m m' : Option τ} {h h' : τ → Bool} {free free' D : Prop}
  {inside inside' : τ → Prop} {t : τ}

/-- The mutex `m` is held by the threads in their critical sections `h` and guards data. -/
structure Guarded (m : Option τ) (h : τ → Bool) (free : Prop) (inside : τ → Prop) : Prop where
  lock : HeldBy m h
  free : m = none → free
  inside : ∀ t, h t = true → inside t

theorem Guarded.of_wait {mode : Mode} {ok : Bool} {w : Wait} {op : MutexOp} {q : Option Wait}
    (hG : Guarded m h free inside) (ht : h t = w.holds)
    (hs : w.step mode m.isNone ok = some (op, q)) (hfree : free → D) (hin : inside t → D) : D := by
  have hout : m.isNone = true → D := fun hn => hfree (hG.free (Option.isNone_iff_eq_none.mp hn))
  rcases Wait.step_cases hs with ⟨_, _, hn, _⟩ | ⟨_, _, hn, _⟩ | ⟨rfl, _⟩ | ⟨rfl, _⟩ | ⟨rfl, _⟩ |
    ⟨_, hn, _⟩
  · exact hout hn
  · exact hout hn
  · exact hin (hG.inside t ht)
  · exact hin (hG.inside t ht)
  · exact hin (hG.inside t ht)
  · exact hout hn

theorem Guarded.congr (hG : Guarded m h free inside) (hh : ∀ u, h' u = h u)
    (hfree : free → free') (hin : ∀ u, h u = true → inside u → inside' u) :
    Guarded m h' free' inside' := by
  obtain ⟨hlock, hf, hi⟩ := hG
  obtain rfl : h' = h := funext hh
  exact ⟨hlock, fun hn => hfree (hf hn), fun u hu => hin u hu (hi u hu)⟩

variable [DecidableEq τ]

theorem HeldBy.of_frame {b : Bool} (hm : HeldBy m (Function.update h t b)) (ht : h' t = b)
    (hframe : ∀ u ≠ t, h' u = h u) : HeldBy m h' := by
  have heq : h' = Function.update h t b := by
    funext u
    rcases eq_or_ne u t with rfl | hu
    · rw [Function.update_self, ht]
    · rw [Function.update_of_ne hu, hframe u hu]
  rw [heq]
  exact hm

/-- A step of a thread outside of its critical section. -/
theorem Guarded.outside (hG : Guarded m h free inside) (hframe : ∀ u ≠ t, h' u = h u)
    (ht : h t = false) (ht' : h' t = false) (hfree : free → free')
    (hin : ∀ u ≠ t, h u = true → inside u → inside' u) : Guarded m h' free' inside' := by
  obtain ⟨hlock, hf, hi⟩ := hG
  refine ⟨(hlock.keep ht).of_frame ht' hframe, fun hn => hfree (hf hn), fun u hu => ?_⟩
  rcases eq_or_ne u t with rfl | hut
  · rw [ht'] at hu
    cases hu
  · rw [hframe u hut] at hu
    exact hin u hut hu (hi u hu)

theorem Guarded.take (hG : Guarded none h free inside) (hframe : ∀ u ≠ t, h' u = h u)
    (ht' : h' t = true) (hin : free → inside' t) : Guarded (some t) h' free' inside' := by
  obtain ⟨hlock, hf, hi⟩ := hG
  have hlock' : HeldBy (some t) h' := (hlock.take rfl).of_frame ht' hframe
  refine ⟨hlock', fun hn => (by cases hn), fun u hu => ?_⟩
  obtain rfl := hlock'.unique hu ht'
  exact hin (hf rfl)

/-- A step of the thread that holds the mutex; it may leave its critical section. -/
theorem Guarded.inside_step (hG : Guarded m h free inside) (hframe : ∀ u ≠ t, h' u = h u)
    (ht : h t = true) (hm : m' = if h' t then m else none) (hin : h' t = true → inside' t)
    (hfree : h' t = false → free') : Guarded m' h' free' inside' := by
  obtain ⟨hlock, hf, hi⟩ := hG
  have hmt := (hlock t).mpr ht
  cases ht' : h' t with
  | true =>
      have hlock' : HeldBy m h' := (hlock.keep ht).of_frame ht' hframe
      rw [ht', if_pos rfl] at hm
      subst hm
      refine ⟨hlock', fun hn => ?_, fun u hu => ?_⟩
      · rw [hmt] at hn
        cases hn
      · obtain rfl := hlock'.unique hu ht'
        exact hin ht'
  | false =>
      have hlock' : HeldBy none h' := (hlock.drop ht).of_frame ht' hframe
      rw [ht', if_neg Bool.false_ne_true] at hm
      subst hm
      refine ⟨hlock', fun _ => hfree ht', fun u hu => ?_⟩
      cases (hlock' u).mpr hu

/-- A step of a waiting loop. -/
theorem Guarded.wait {mode : Mode} {ok : Bool} {w : Wait} {op : MutexOp} {q : Option Wait}
    (hG : Guarded m h free inside) (hframe : ∀ u ≠ t, h' u = h u) (ht : h t = w.holds)
    (hs : w.step mode m.isNone ok = some (op, q)) (ht' : h' t = q.elim true Wait.holds)
    (hfree : D → free') (hin : h' t = true → D → inside' t) (hDfree : free → D)
    (hDin : inside t → D) : Guarded (op.apply t m) h' free' inside' := by
  have hD : D := hG.of_wait ht hs hDfree hDin
  have hlock' := (hG.lock.wait ht hs).of_frame ht' hframe
  refine ⟨hlock', fun _ => hfree hD, fun u hu => ?_⟩
  have hmt : op.apply t m = some t := by
    have hmu := (hlock' u).mpr hu
    cases op with
    | take => rfl
    | drop => cases hmu
    | keep =>
        rcases Wait.step_cases hs with ⟨_, _, _, ho, _⟩ | ⟨_, _, _, _, ho, _⟩ | ⟨rfl, _⟩ |
          ⟨rfl, _⟩ | ⟨_, ho, _⟩ | ⟨_, _, ho, _⟩
        · cases ho
        · cases ho
        · exact (hG.lock t).mpr ht
        · exact (hG.lock t).mpr ht
        · cases ho
        · cases ho
  have htt := (hlock' t).mp hmt
  obtain rfl := hlock'.unique hu htt
  exact hin htt hD

end OsProjects.Monitor
