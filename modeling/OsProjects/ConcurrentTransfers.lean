import OsProjects.TaskHandover

/-! # Transfers through one descriptor

`content_get` gives all workers of the multithreaded server the same descriptor for a path, and
both it and the workers move the one offset behind it.  `pread` is given its own offset and `lseek`
to the end returns the size wherever the offset stands, so the workers do not disturb each other.

* `Worker.Serves.jobStep` — what a worker has announced and sent, at each point of its loop.
* `transfers_apart` — in every run with complete reads and sends, every worker announces the true
  length of its file and has sent a prefix of it, all of it when the copy loop ends. -/

namespace OsProjects.MtServer

open Monitor Transition

variable {ω κ : Type*} [DecidableEq ω] {E : Env} {s s' : State ω κ} {w : ω} {r : ℤ} {q : Task κ}
  {c c' : Worker κ} {j : Worker κ × Option ℕ} {t : Task κ}

/-- `lseek` succeeds, `pread` gives at least one byte, and `gfs_send` sends what it is asked to. -/
def CallOk (c : Worker κ) (r : ℤ) : Prop :=
  (c.pc = .lseek → 0 ≤ r) ∧ (c.pc = .pread → 1 ≤ r) ∧ (c.pc = .send → r = c.readLen)

instance (c : Worker κ) (r : ℤ) : Decidable (CallOk c r) := inferInstanceAs (Decidable (_ ∧ _))

/-- Every call of a worker is so. -/
def CallsOk (s : State ω κ) : Act ω κ → Prop
  | .worker w r => CallOk (s.workers w) r
  | .boss _ | .spurious _ => True

instance (s : State ω κ) : (a : Act ω κ) → Decidable (CallsOk s a)
  | .worker w r => inferInstanceAs (Decidable (CallOk (s.workers w) r))
  | .boss _ => isTrue trivial
  | .spurious _ => isTrue trivial

/-! ### What a worker has sent -/

/-- The bytes that a call passes to the client. -/
def Call.body : Call → List Byte
  | send buffer size => buffer.take size
  | sendheader _ _ | abort => []

/-- The body bytes of the calls for the present task. -/
def Worker.sent (c : Worker κ) : List Byte := (c.calls.map Call.body).flatten

/-- The headers of the calls for the present task. -/
def Worker.announced (c : Worker κ) : List (Status × ℤ) :=
  c.calls.filterMap fun
    | .sendheader status fileLen => some (status, fileLen)
    | .send _ _ | .abort => none

/-- The calls of the worker are for task `t`. -/
def Worker.Answers (c : Worker κ) (t : Task κ) : Prop :=
  c.job = some t ∧ c.pc ≠ .unlock ∧ c.pc ≠ .contentGet

/-- The file of a task. -/
def Env.fileOf (E : Env) (t : Task κ) : List Byte := E.contents (E.contentGet t.path)

/-- The copy loop has ended. -/
def Worker.Copied (c : Worker κ) : Prop :=
  match c.pc with
  | .copy => c.fileLen ≤ c.bytesTransferred
  | .waitTask _ | .pop => True
  | _ => False

/-- The worker has announced the file of its task and sent its first `n` bytes. -/
structure Worker.SentTo (E : Env) (c : Worker κ) (n : ℤ) : Prop where
  fildes : ∀ t, c.job = some t → c.fildes = E.contentGet t.path
  known : 0 ≤ c.fildes
  fileLen : c.fileLen = (E.contents c.fildes).length
  announced : c.announced = [(.ok, ((E.contents c.fildes).length : ℤ))]
  sent : c.sent = (E.contents c.fildes).take n.toNat
  nonneg : 0 ≤ n
  le : n ≤ (E.contents c.fildes).length

/-- What a worker has done for its task. -/
def Worker.Serves (E : Env) (c : Worker κ) : Prop :=
  match c.pc with
  | .waitTask _ | .pop => c.job = none ∨ c.SentTo E c.fileLen
  | .unlock | .contentGet => True
  | .sendNotFound => c.fildes < 0 ∧ c.calls = [] ∧ ∀ t, c.job = some t → c.fildes = E.contentGet t.path
  | .returned =>
      c.fildes < 0 ∧ c.calls = [.sendheader .fileNotFound 0] ∧
        ∀ t, c.job = some t → c.fildes = E.contentGet t.path
  | .lseek => 0 ≤ c.fildes ∧ c.calls = [] ∧ ∀ t, c.job = some t → c.fildes = E.contentGet t.path
  | .sendOk =>
      0 ≤ c.fildes ∧ c.calls = [] ∧ c.fileLen = (E.contents c.fildes).length ∧
        ∀ t, c.job = some t → c.fildes = E.contentGet t.path
  | .copy => c.SentTo E c.bytesTransferred
  | .pread => c.SentTo E c.bytesTransferred ∧ c.bytesTransferred < c.fileLen
  | .send =>
      c.SentTo E c.bytesTransferred ∧ 0 < c.readLen ∧ c.readLen ≤ bufferSize ∧
        c.bytesTransferred + c.readLen ≤ (E.contents c.fildes).length ∧
        c.buffer.take c.readLen.toNat =
          ((E.contents c.fildes).drop c.bytesTransferred.toNat).take c.readLen.toNat
  | .advance => c.SentTo E (c.bytesTransferred + c.writeLen)
  | .readError | .readAbort | .writeError | .writeAbort => False

theorem sent_append (c : Worker κ) (call : Call) :
    Worker.sent { c with calls := c.calls ++ [call] } = c.sent ++ call.body := by
  simp [Worker.sent]

theorem preadAt_pos (data : List Byte) {off : ℤ} (hoff : 0 ≤ off) (hlt : off < data.length)
    (hr : 1 ≤ r) :
    0 < (preadAt data off r).2 ∧ (preadAt data off r).2 ≤ bufferSize ∧
      off + (preadAt data off r).2 ≤ data.length ∧
      (preadAt data off r).2 = (preadAt data off r).1.length ∧
      (preadAt data off r).1 = (data.drop off.toNat).take (preadAt data off r).2.toNat := by
  have hpos : 1 ≤ bufferSize := by decide
  rw [preadAt, if_neg (by omega)]
  dsimp only
  rw [List.length_take, List.length_drop, Int.toNat_natCast]
  refine ⟨by omega, by omega, by omega, rfl, ?_⟩
  apply List.take_eq_take_iff.mpr
  rw [List.length_drop]
  omega

theorem Worker.SentTo.congr {n : ℤ} (h : c.SentTo E n) (hjob : c'.job = c.job)
    (hfildes : c'.fildes = c.fildes) (hlen : c'.fileLen = c.fileLen) (hcalls : c'.calls = c.calls) :
    c'.SentTo E n := by
  obtain ⟨h₁, h₂, h₃, h₄, h₅, h₆, h₇⟩ := h
  unfold Worker.announced at h₄
  unfold Worker.sent at h₅
  rw [← hcalls] at h₄ h₅
  rw [← hfildes] at h₁ h₂ h₃ h₄ h₅ h₇
  exact ⟨by rw [hjob]; exact h₁, h₂, by rw [hlen]; exact h₃, h₄, h₅, h₆, h₇⟩

/-- A complete send of the bytes that have been read. -/
theorem Worker.SentTo.send (h : c.SentTo E c.bytesTransferred) (hr : 0 < c.readLen)
    (hle : c.bytesTransferred + c.readLen ≤ (E.contents c.fildes).length)
    (hsize : c.readLen ≤ bufferSize)
    (hbuf : c.buffer.take c.readLen.toNat =
      ((E.contents c.fildes).drop c.bytesTransferred.toNat).take c.readLen.toNat) :
    Worker.SentTo E { c with calls := c.calls ++ [.send c.buffer (sizeT c.readLen)] }
      (c.bytesTransferred + c.readLen) := by
  obtain ⟨h₁, h₂, h₃, h₄, h₅, h₆, h₇⟩ := h
  refine ⟨h₁, h₂, h₃, ?_, ?_, by omega, hle⟩
  · simpa [Worker.announced] using h₄
  · have hsz : sizeT c.readLen = c.readLen.toNat := by
      apply sizeT_of_nonneg (by omega)
      have : (bufferSize : ℤ) < 2 ^ 64 := by decide
      omega
    rw [sent_append, h₅, Call.body, hsz, hbuf, Int.toNat_add h₆ (by omega), List.take_add]

/-- What a step for the task does to it. -/
theorem Worker.Serves.jobStep (hc : c.Serves E) (hr : CallOk c r) (h : jobStep E c r = some j) :
    j.1.Serves E := by
  unfold MtServer.jobStep at h
  unfold Worker.Serves at hc
  cases hp : c.pc with
  | waitTask _ | pop | unlock | returned => simp [hp] at h
  | readError | readAbort | writeError | writeAbort => simp [hp] at hc
  | contentGet =>
      simp only [hp, Option.map_eq_some_iff] at h
      obtain ⟨t, ht, rfl⟩ := h
      have hjob : ∀ u, c.job = some u → E.contentGet t.path = E.contentGet u.path := by
        intro u hu
        rw [Option.some.inj (ht.symm.trans hu)]
      by_cases hneg : E.contentGet t.path < 0
      · rw [if_pos hneg]
        exact ⟨hneg, rfl, hjob⟩
      · rw [if_neg hneg]
        exact ⟨not_lt.mp hneg, rfl, hjob⟩
  | sendNotFound =>
      simp only [hp, Option.some.injEq] at h hc
      subst h
      obtain ⟨hneg, hcalls, hjob⟩ := hc
      exact ⟨hneg, by simp [hcalls], hjob⟩
  | lseek =>
      simp only [hp] at h hc
      have hr₀ := hr.1 hp
      rw [if_neg (by omega)] at h
      obtain rfl := Option.some.inj h
      exact ⟨hc.1, hc.2.1, rfl, hc.2.2⟩
  | sendOk =>
      simp only [hp, Option.some.injEq] at h hc
      subst h
      obtain ⟨hknown, hcalls, hlen, hjob⟩ := hc
      refine ⟨hjob, hknown, hlen, ?_, ?_, le_refl 0, Int.natCast_nonneg _⟩
      · simp [Worker.announced, hcalls, hlen]
      · simp [Worker.sent, hcalls, Call.body]
  | copy =>
      simp only [hp, Option.some.injEq] at h hc
      subst h
      by_cases hlt : c.bytesTransferred < c.fileLen
      · simp only [if_pos hlt]
        exact ⟨hc.congr rfl rfl rfl rfl, hlt⟩
      · simp only [if_neg hlt]
        have heq : c.bytesTransferred = c.fileLen := by
          have := hc.le
          have := hc.fileLen
          omega
        have hall : c.SentTo E c.fileLen := heq ▸ hc
        exact .inr (hall.congr rfl rfl rfl rfl)
  | pread =>
      simp only [hp, Option.some.injEq] at h hc
      subst h
      obtain ⟨hsent, hlt⟩ := hc
      have hlen := hsent.fileLen
      obtain ⟨hpos, hsize, hle, hlength, hbytes⟩ :=
        preadAt_pos (E.contents c.fildes) hsent.nonneg (by omega) (hr.2.1 hp)
      simp only [if_neg (not_le.mpr hpos)]
      refine ⟨hsent.congr rfl rfl rfl rfl, hpos, hsize, hle, ?_⟩
      rw [← hbytes]
      apply List.take_left'
      dsimp only
      omega
  | send =>
      simp only [hp, Option.some.injEq] at h hc
      subst h
      obtain ⟨hsent, hpos, hsize, hle, hbuf⟩ := hc
      obtain rfl := hr.2.2 hp
      simp only [if_pos]
      exact (hsent.send hpos hle hsize hbuf).congr rfl rfl rfl rfl
  | advance =>
      simp only [hp, Option.some.injEq] at h hc
      subst h
      exact hc.congr rfl rfl rfl rfl

/-! ### All workers -/

theorem Worker.Serves.wake (hc : c.Serves E) : Worker.Serves E { c with pc := c.pc.wake } := by
  cases hp : c.pc with
  | waitTask p =>
      simp only [Worker.Serves, hp] at hc
      exact hc.imp_right fun hs => hs.congr rfl rfl rfl rfl
  | _ =>
      have heq : c.pc.wake = c.pc := by rw [hp]; rfl
      rw [← hp, heq]
      exact hc

/-- A step of a worker keeps what it has done for its task. -/
theorem serves_workerStep (hc : (s.workers w).Serves E) (hr : CallOk (s.workers w) r)
    (h : workerStep E s w r = some s') : (s'.workers w).Serves E := by
  unfold MtServer.workerStep at h
  cases hp : (s.workers w).pc with
  | waitTask p =>
      simp only [hp, Option.map_eq_some_iff] at h
      obtain ⟨⟨op, n⟩, _, rfl⟩ := h
      simp only [Worker.Serves, hp] at hc
      have hidle : ∀ p', p' = .pop ∨ (∃ v, p' = .waitTask v) →
          Worker.Serves E { s.workers w with pc := p' } := by
        rintro p' (rfl | ⟨v, rfl⟩)
        · exact hc.imp_right fun hs => hs.congr rfl rfl rfl rfl
        · exact hc.imp_right fun hs => hs.congr rfl rfl rfl rfl
      cases n with
      | none => simpa [State.setWorker] using hidle _ (.inl rfl)
      | some v => simpa [State.setWorker] using hidle _ (.inr ⟨v, rfl⟩)
  | pop =>
      simp only [hp] at h
      split at h <;> obtain rfl := Option.some.inj h
      · exact hc
      · simp [State.setWorker, Worker.Serves]
  | unlock =>
      simp only [hp, Option.some.injEq] at h
      subst h
      simp [State.setWorker, Worker.Serves]
  | _ =>
      simp only [hp, Option.map_eq_some_iff] at h
      obtain ⟨j, hj, rfl⟩ := h
      simpa [State.setWorker] using hc.jobStep hr hj

omit [DecidableEq ω] in
theorem serves_bossStep (hc : ∀ v, (s.workers v).Serves E) (h : bossStep s q = some s') (v : ω) :
    (s'.workers v).Serves E := by
  unfold MtServer.bossStep at h
  cases hp : s.boss with
  | lock =>
      simp only [hp] at h
      obtain ⟨_, h⟩ := Option.ite_none_right_eq_some.mp h
      obtain rfl := Option.some.inj h
      exact hc v
  | broadcast =>
      simp only [hp, Option.some.injEq] at h
      subst h
      exact (hc v).wake
  | _ =>
      simp only [hp, Option.some.injEq] at h
      subst h
      exact hc v

theorem serves_step {a : Act ω κ} (hc : ∀ v, (s.workers v).Serves E) (ha : CallsOk s a)
    (h : step E s a = some s') (v : ω) : (s'.workers v).Serves E := by
  unfold MtServer.step at h
  split at h
  · cases h
  · cases a with
    | boss q => exact serves_bossStep hc h v
    | worker w r =>
        rcases eq_or_ne v w with rfl | hv
        · exact serves_workerStep (hc v) ha h
        · rw [workerStep_frame h v hv]
          exact hc v
    | spurious w =>
        obtain rfl := Option.some.inj h
        rcases eq_or_ne v w with rfl | hv
        · rw [setWorker_self]
          exact (hc v).wake
        · rw [setWorker_of_ne s _ hv]
          exact hc v

theorem Reachable.serves (h : Reachable E CallsOk s) (v : ω) : (s.workers v).Serves E :=
  h.invariant (I := fun s => ∀ v, (s.workers v).Serves E)
    (fun v => by simp [init, Worker.init, Worker.Serves]) (fun _ _ _ hc ha hs => serves_step hc ha hs) v

/-! ### The transfers -/

/-- A transfer of a file of which `n` bytes have been sent. -/
theorem Worker.SentTo.apart {n : ℤ} (h : c.SentTo E n) (hjob : c.job = some t) :
    0 ≤ E.contentGet t.path ∧ c.announced = [(.ok, ((E.fileOf t).length : ℤ))] ∧
      c.sent = (E.fileOf t).take n.toNat := by
  have hfildes := h.fildes t hjob
  have hknown := h.known
  have hannounced := h.announced
  have hsent := h.sent
  rw [hfildes] at hknown hannounced hsent
  exact ⟨hknown, hannounced, hsent⟩

/-- What a worker has announced and sent for its task, known or not. -/
structure Worker.Apart (E : Env) (c : Worker κ) (t : Task κ) : Prop where
  announced : 0 ≤ E.contentGet t.path → ∀ a ∈ c.announced, a = (.ok, ((E.fileOf t).length : ℤ))
  sent : c.sent <+: E.fileOf t
  copied : 0 ≤ E.contentGet t.path → c.Copied →
    c.announced = [(.ok, ((E.fileOf t).length : ℤ))] ∧ c.sent = E.fileOf t
  unknown : E.contentGet t.path < 0 → c.sent = [] ∧ ∀ a ∈ c.announced, a = (.fileNotFound, 0)

theorem Worker.Apart.of_sentTo {n : ℤ} (h : c.SentTo E n) (hjob : c.job = some t)
    (hcopied : c.Copied → (E.fileOf t).length ≤ n) : c.Apart E t := by
  obtain ⟨hknown, hannounced, hsent⟩ := h.apart hjob
  refine ⟨fun _ a ha => ?_, ?_, fun _ hc => ⟨hannounced, ?_⟩, fun hneg => by omega⟩
  · rw [hannounced] at ha
    exact List.mem_singleton.mp ha
  · rw [hsent]
    exact List.take_prefix _ _
  · rw [hsent]
    apply List.take_of_length_le
    have := hcopied hc
    omega

/-- A worker that has not called anything for its task yet, or only refused it. -/
theorem Worker.Apart.of_unsent (hsent : c.sent = []) (hc : ¬c.Copied)
    (hfound : 0 ≤ E.contentGet t.path → c.announced = [])
    (hrefused : ∀ a ∈ c.announced, a = (.fileNotFound, 0)) : c.Apart E t where
  announced hknown a ha := by
    rw [hfound hknown] at ha
    cases ha
  sent := by rw [hsent]; exact List.nil_prefix
  copied _ h := absurd h hc
  unknown _ := ⟨hsent, hrefused⟩

theorem Worker.Serves.apart (hc : c.Serves E) (ht : c.Answers t) : c.Apart E t := by
  obtain ⟨hjob, hne₁, hne₂⟩ := ht
  unfold Worker.Serves at hc
  cases hp : c.pc with
  | unlock => exact absurd hp hne₁
  | contentGet => exact absurd hp hne₂
  | readError | readAbort | writeError | writeAbort => simp [hp] at hc
  | waitTask _ | pop =>
      simp only [hp] at hc
      have hs := hc.resolve_left (by simp [hjob])
      refine .of_sentTo hs hjob fun _ => ?_
      rw [hs.fileLen, hs.fildes t hjob]
      rfl
  | sendNotFound | lseek | sendOk =>
      simp only [hp] at hc
      obtain ⟨_, hcalls, _⟩ := hc
      refine .of_unsent ?_ ?_ ?_ ?_
      · simp [Worker.sent, hcalls]
      · simp [Worker.Copied, hp]
      · simp [Worker.announced, hcalls]
      · simp [Worker.announced, hcalls]
  | returned =>
      simp only [hp] at hc
      obtain ⟨hneg, hcalls, hfildes⟩ := hc
      have hunknown := hfildes t hjob
      refine .of_unsent ?_ ?_ (fun hknown => by omega) ?_
      · simp [Worker.sent, hcalls, Call.body]
      · simp [Worker.Copied, hp]
      · simp [Worker.announced, hcalls]
  | copy =>
      simp only [hp] at hc
      refine .of_sentTo hc hjob fun hcopied => ?_
      simp only [Worker.Copied, hp] at hcopied
      have hlen := hc.fileLen
      rw [hc.fildes t hjob] at hlen
      rw [Env.fileOf]
      omega
  | pread | send =>
      simp only [hp] at hc
      exact .of_sentTo hc.1 hjob fun hcopied => by simp [Worker.Copied, hp] at hcopied
  | advance =>
      simp only [hp] at hc
      exact .of_sentTo hc hjob fun hcopied => by simp [Worker.Copied, hp] at hcopied

/-- **Concurrent transfers stay apart**: whatever the other workers do with the descriptor, a worker
announces the true length of its file, has sent a prefix of it, and all of it when its copy loop
ends; of an unknown path it sends nothing. -/
theorem transfers_apart (E : Env) (s : State ω κ) (h : Reachable E CallsOk s) (w : ω) (t : Task κ)
    (ht : (s.workers w).Answers t) : (s.workers w).Apart E t :=
  (Reachable.serves h w).apart ht

/-- Two workers copy the same file in turns. -/
def twoTransfers : List (Act Bool ℕ) :=
  List.replicate 12 (.boss ⟨0, str "/a"⟩) ++ List.replicate 7 (.worker true 7) ++
    List.replicate 7 (.worker false 7) ++
    [.worker true 0, .worker true 2, .worker false 0, .worker false 7, .worker true 2,
      .worker false 7, .worker false 0, .worker false 0]

def twoTransfersEnd : State Bool ℕ :=
  (execOk (step oneFile) CallsOk (init Bool ℕ) twoTransfers).getD (init Bool ℕ)

theorem transfers_apart_two :
    (twoTransfersEnd.workers true).sent <+: str "content" ∧
      (twoTransfersEnd.workers false).sent = str "content" := by
  have hr : Reachable oneFile CallsOk twoTransfersEnd := reach_of_execOk twoTransfers rfl
  have hta := transfers_apart oneFile twoTransfersEnd hr true ⟨0, str "/a"⟩
    ⟨by decide +kernel, by decide +kernel, by decide +kernel⟩
  have hfa := transfers_apart oneFile twoTransfersEnd hr false ⟨0, str "/a"⟩
    ⟨by decide +kernel, by decide +kernel, by decide +kernel⟩
  have hidle : (twoTransfersEnd.workers false).pc = .waitTask .lock := by decide +kernel
  refine ⟨hta.sent, (hfa.copied (by decide +kernel) ?_).2⟩
  simp [Worker.Copied, hidle]

end OsProjects.MtServer
