import OsProjects.ChannelInv

/-! # The announced length

The size of the file is an `off_t` in `lseek`, an `int` in `file_len`, in `mem->file_length` and
in `file_len` of `handle_with_cache`, and a `size_t` in `gfs_sendheader`; a negative `int` says
that there is no file (`Env.lengthHeader`).

* `Reachable.told` — every header of every run is the one that the stored `int` stands for, and
  there is none for the length 0, on which the handler keeps waiting.
* `header_reachable` — for any other length that header is sent in some run.
* `announced_iff` — every header says what `simplecache_get` has found exactly for the files
  whose size is below `2 ^ 31` or a multiple of `2 ^ 32`. -/

namespace OsProjects.Channel

open Monitor Transition

/-- What the caller of `handle_with_cache` should be told of the file. -/
def Env.fileHeader (E : Env) : Gfstatus × ℕ :=
  match E.file with
  | none => (.fileNotFound, 0)
  | some f => (.ok, f.length)

/-- What the handler makes of the `int` that stands for the file. -/
def Env.lengthHeader (E : Env) : Gfstatus × ℕ :=
  if E.fileLen < 0 then (.fileNotFound, 0) else (.ok, sizeT E.fileLen)

/-- Every header of every run says what `simplecache_get` has found. -/
def Announced (E : Env) : Prop :=
  ∀ s, Reachable E Any s → ∀ h ∈ s.headers, h = E.fileHeader

/-! ### Headers of a run -/

/-- The headers so far; past the first waiting loop the length is not 0. -/
structure Told (E : Env) (s : State) : Prop where
  headers : ∀ h ∈ s.headers, E.fileLen ≠ 0 ∧ h = E.lengthHeader
  length : s.hpc.early = false → E.fileLen ≠ 0

section headers
variable {E : Env} {s s' : State} {w r : ℤ}

theorem handlerStep_headers (h : handlerStep E s w = some s') :
    (s.hpc = .branch ∧ 0 ≤ s.fileLen ∧ s'.headers = s.headers ++ [(.ok, sizeT s.fileLen)]) ∨
    (s.hpc = .reply ∧ s.fileLen < 0 ∧ s'.headers = s.headers ++ [(.fileNotFound, 0)]) ∨
    s'.headers = s.headers := by
  cases hp : s.hpc with
  | waitLength p | waitChunk p =>
      simp only [handlerStep, hp, State.waitHandler, Option.map_eq_some_iff] at h
      obtain ⟨_, _, rfl⟩ := h
      exact .inr (.inr rfl)
  | branch =>
      simp only [handlerStep, hp] at h
      split at h
      · obtain rfl := Option.some.inj h
        exact .inr (.inr rfl)
      · next hlen =>
          obtain rfl := Option.some.inj h
          exact .inl ⟨rfl, by omega, rfl⟩
  | send =>
      simp only [handlerStep, hp, State.gfsSend, Option.some.injEq] at h
      split at h <;> subst h <;> exact .inr (.inr rfl)
  | reply =>
      simp only [handlerStep, hp, State.replyWith, Option.some.injEq] at h
      split at h
      · next hlen =>
          subst h
          exact .inr (.inl ⟨rfl, hlen, rfl⟩)
      · subst h
        exact .inr (.inr rfl)
  | returned | failed => simp [handlerStep, hp] at h
  | _ =>
      simp only [handlerStep, hp, Option.some.injEq] at h
      subst h
      exact .inr (.inr rfl)

/-- The handler leaves its first waiting loop with a length other than 0. -/
theorem handlerStep_late (h : handlerStep E s w = some s') (hl : s'.hpc.early = false) :
    s.hpc.early = false ∨ (s.hpc.lengthGone = false ∧ s.fileLength ≠ 0) := by
  cases hp : s.hpc with
  | createLength | createWritten | mqSend =>
      simp only [handlerStep, hp, Option.some.injEq] at h
      subst h
      cases hl
  | waitLength p =>
      simp only [handlerStep, hp, State.waitHandler, Option.map_eq_some_iff] at h
      obtain ⟨⟨op, q⟩, hw, rfl⟩ := h
      cases q with
      | some q => cases hl
      | none => exact .inr ⟨rfl, by simpa using Wait.ok_of_step_none hw⟩
  | _ => exact .inl rfl

theorem Told.handlerStep (hI : Inv E s) (hT : Told E s) (h : handlerStep E s w = some s') :
    Told E s' := by
  have hH := hI.handler
  constructor
  · rcases handlerStep_headers h with ⟨hp, hlen, hs⟩ | ⟨hp, hlen, hs⟩ | hs
    · have hne := hT.length (by rw [hp]; rfl)
      simp only [hp, HPc.Ok] at hH
      obtain ⟨_, _, hF, _⟩ := hH
      intro x hx
      rcases List.mem_append.mp (hs ▸ hx) with hx | hx
      · exact hT.headers x hx
      · rw [List.mem_singleton.mp hx, Env.lengthHeader, if_neg (by omega), hF]
        exact ⟨hne, rfl⟩
    · have hne := hT.length (by rw [hp]; rfl)
      simp only [hp, HPc.Ok] at hH
      obtain ⟨_, _, hF, _⟩ := hH
      intro x hx
      rcases List.mem_append.mp (hs ▸ hx) with hx | hx
      · exact hT.headers x hx
      · rw [List.mem_singleton.mp hx, Env.lengthHeader, if_pos (by omega)]
        exact ⟨hne, rfl⟩
    · rw [hs]
      exact hT.headers
  · intro hl
    rcases handlerStep_late h hl with hlate | ⟨hgone, hne⟩
    · exact hT.length hlate
    · -- a length other than 0 is the one that the worker has stored
      have hW := hI.worker
      rw [hgone] at hW
      rw [← hW.length_of_late (hW.late_of_length hne)]
      exact hne

theorem Told.workerStep (hT : Told E s) (h : workerStep E s r = some s') : Told E s' := by
  obtain ⟨⟨_, hheaders, _, _⟩, hp⟩ := workerStep_frame h
  constructor
  · rw [hheaders]
    exact hT.headers
  · rcases hp with hp | hp <;> simpa [hp] using hT.length

theorem Told.step {a : Act} (hI : Inv E s) (hT : Told E s) (h : step E s a = some s') :
    Told E s' := by
  cases a with
  | handler w => exact hT.handlerStep hI h
  | worker r => exact hT.workerStep h
  | spuriousHandler =>
      obtain rfl := Option.some.inj h
      exact ⟨hT.headers, by simpa using hT.length⟩
  | spuriousWorker =>
      obtain rfl := Option.some.inj h
      exact ⟨hT.headers, hT.length⟩

theorem told_init (E : Env) : Told E (init E) where
  headers := by simp [init]
  length := by simp [init, HPc.early]

theorem Reachable.told {ok : State → Act → Prop} (h : Reachable E ok s) : Told E s :=
  h.invariant_of (fun _ => Reachable.inv) (told_init E) fun _ _ _ hI hT _ hs => hT.step hI hs

end headers

/-! ### A run to the header -/

/-- The handler sends its message, and the worker stores the length. -/
def lengthRun : Mode → List Act
  | .pthread => List.replicate 3 (.handler 0) ++ List.replicate 8 (.worker 0)
  | .guarded => List.replicate 3 (.handler 0) ++ List.replicate 7 (.worker 0)

/-- The length is in the segment, and nothing is locked. -/
structure LengthStored (E : Env) (s : State) : Prop where
  handler : s.hpc = .waitLength .lock
  length : s.fileLength = E.fileLen
  free : ∀ m, s.mutex m = none

theorem lengthStored_reachable (E : Env) : ∃ s, Reachable E Any s ∧ LengthStored E s := by
  obtain ⟨mode, proxy, cache, size, segment, file, hlt⟩ := E
  cases mode with
  | pthread =>
      refine ⟨_, reach_of_exec (lengthRun .pthread) rfl, rfl, rfl, fun m => ?_⟩
      by_cases hm : m = cache.fileLenMutex <;> simp [State.unlock, hm, init]
  | guarded =>
      refine ⟨_, reach_of_exec (lengthRun .guarded) rfl, rfl, rfl, fun m => ?_⟩
      by_cases hm : m = cache.fileLenMutex <;> simp [State.unlock, hm, init]

section header
variable {E : Env} {s : State}

theorem LengthStored.seen (hs : LengthStored E s) (hF : E.fileLen ≠ 0) :
    ∃ s', Reach (step E) Any s s' ∧ s'.hpc = .readLength ∧ s'.fileLength = E.fileLen := by
  obtain ⟨hp, hlen, hfree⟩ := hs
  have hne : s.fileLength ≠ 0 := by rwa [hlen]
  cases hm : E.mode with
  | pthread =>
      have hrun : exec (step E) s [.handler 0, .handler 0] = some { s with
          mutex := Function.update s.mutex E.proxy.fileLenMutex (some .proxy)
          hpc := .readLength } := by
        simp [exec, step, handlerStep, hp, State.waitHandler, Wait.step, hm, hfree, hne]
      exact ⟨_, reach_of_exec _ hrun, rfl, hlen⟩
  | guarded =>
      have hrun : exec (step E) s [.handler 0] = some { s with
          mutex := Function.update s.mutex E.proxy.fileLenMutex (some .proxy)
          hpc := .readLength } := by
        simp [exec, step, handlerStep, hp, State.waitHandler, Wait.step, hm, hfree, hne]
      exact ⟨_, reach_of_exec _ hrun, rfl, hlen⟩

theorem branch_of_readLength (hp : s.hpc = .readLength) :
    ∃ s', Reach (step E) Any s s' ∧ s'.hpc = .branch ∧ s'.fileLen = s.fileLength :=
  ⟨_, reach_of_exec (List.replicate 3 (.handler 0)) (by
    simp only [List.replicate, exec, step, handlerStep, hp, Option.bind_some]
    rfl), rfl, rfl⟩

theorem header_of_branch (hp : s.hpc = .branch) (hlen : s.fileLen = E.fileLen) :
    ∃ s', Reach (step E) Any s s' ∧ E.lengthHeader ∈ s'.headers := by
  by_cases hneg : s.fileLen < 0
  · refine ⟨_, reach_of_exec (List.replicate 5 (.handler 0)) (by
      simp only [List.replicate, exec, step, handlerStep, hp, Option.bind_some, if_pos hneg,
        State.replyWith]
      rfl), ?_⟩
    rw [Env.lengthHeader, if_pos (by omega)]
    simp
  · refine ⟨_, reach_of_exec [.handler 0] (by
      simp only [exec, step, handlerStep, hp, Option.bind_some, if_neg hneg]
      rfl), ?_⟩
    rw [Env.lengthHeader, if_neg (by omega), hlen]
    simp

end header

/-- The header of any length but 0 is sent in some run. -/
theorem header_reachable (E : Env) (hF : E.fileLen ≠ 0) :
    ∃ s, Reachable E Any s ∧ E.lengthHeader ∈ s.headers := by
  obtain ⟨s₁, h₁, hstored⟩ := lengthStored_reachable E
  obtain ⟨s₂, h₂, hp₂, hlen₂⟩ := hstored.seen hF
  obtain ⟨s₃, h₃, hp₃, hlen₃⟩ := branch_of_readLength (E := E) hp₂
  obtain ⟨s₄, h₄, hh⟩ := header_of_branch hp₃ (hlen₃.trans hlen₂)
  exact ⟨s₄, ((h₁.trans h₂).trans h₃).trans h₄, hh⟩

/-! ### Sizes announced as they are -/

/-- The header of the stored `int` is that of the file exactly for the sizes below `2 ^ 31`. -/
theorem Env.lengthHeader_eq_iff (E : Env) :
    E.lengthHeader = E.fileHeader ↔ ∀ f, E.file = some f → f.length < 2 ^ 31 := by
  cases hf : E.file with
  | none => simp [lengthHeader, fileHeader, fileLen, hf]
  | some f =>
      have hlen : E.fileLen = cInt f.length := by simp [fileLen, hf]
      simp only [lengthHeader, fileHeader, hf, hlen, Option.some.injEq, forall_eq']
      rw [← sizeT_cInt_eq_iff]
      split
      · next hneg => simp [hneg]
      · next hnn => simp [not_lt.mp hnn]

theorem Env.fileLen_eq_zero_iff (E : Env) :
    E.fileLen = 0 ↔ ∃ f, E.file = some f ∧ 2 ^ 32 ∣ f.length := by
  cases hf : E.file with
  | none => simp [fileLen, hf]
  | some f =>
      simp only [fileLen, hf, Option.some.injEq, exists_eq_left', cInt_eq_zero_iff]
      omega

/-- **The announced length** is the size of the file, in every run, exactly for the files of
less than `2 ^ 31` bytes and those of a multiple of `2 ^ 32` bytes, for which no header is sent. -/
theorem announced_iff (E : Env) :
    Announced E ↔ ∀ f, E.file = some f → f.length < 2 ^ 31 ∨ 2 ^ 32 ∣ f.length := by
  constructor
  · intro h f hf
    by_cases hF : E.fileLen = 0
    · obtain ⟨g, hg, hdvd⟩ := E.fileLen_eq_zero_iff.mp hF
      obtain rfl := Option.some.inj (hf.symm.trans hg)
      exact .inr hdvd
    · obtain ⟨s, hs, hh⟩ := header_reachable E hF
      exact .inl (E.lengthHeader_eq_iff.mp (h s hs _ hh) f hf)
  · intro h s hs x hx
    obtain ⟨hF, rfl⟩ := hs.told.headers x hx
    refine E.lengthHeader_eq_iff.mpr fun f hf => (h f hf).resolve_right fun hdvd => ?_
    exact hF (E.fileLen_eq_zero_iff.mpr ⟨f, hf, hdvd⟩)

/-- A sparse file of `n` bytes. -/
def sparseFile (n : ℕ) : Env :=
  ⟨.pthread, proxyLayout, cacheLayout, 184, 1024, some (List.replicate n 0), kilobyte_lt⟩

/-- A file of `n` bytes is announced as one that is not there when `n` becomes negative. -/
theorem notFound_of_neg {n : ℕ} (h : cInt n < 0) :
    ∃ s, Reachable (sparseFile n) Any s ∧ (.fileNotFound, 0) ∈ s.headers := by
  have hlen : (sparseFile n).fileLen = cInt n := by simp [sparseFile, Env.fileLen]
  obtain ⟨s, hs, hh⟩ := header_reachable (sparseFile n) (by omega)
  rw [Env.lengthHeader, if_pos (by omega)] at hh
  exact ⟨s, hs, hh⟩

/-- A file of `2 ^ 31` bytes is announced as not found. -/
theorem not_announced_large : ¬ Announced (sparseFile (2 ^ 31)) := by
  intro h
  obtain ⟨s, hs, hh⟩ := notFound_of_neg (n := 2 ^ 31) (by decide)
  cases h s hs _ hh

end OsProjects.Channel
