import OsProjects.ChannelInv
import Mathlib.Algebra.Order.BigOperators.Group.List

/-! # The chunks that the worker publishes

`read_len`, the result of `pread`, goes unchecked into `mem->bytes_written`, where it is a length
for the handler, the mark of a full slot and the increment of the worker's total.  The exchange is
run here together with a record of every result of `pread` and of every value published
(`Recorded`).

* `SlotMove`, `CopyMove` — all that a step of either side does to the slot and to the total.
* `taken_handlerStep` — the handler passes on exactly the lengths that were published.
* `Copied` — while every `pread` returns at least one byte (`ReadsData`), the values published
  are those read, and add up to the worker's total.
* `handedOver` — then no length is wrong on its way to `gfs_send`, and the copy loop has at most
  as many rounds as the file has bytes. -/

namespace OsProjects.Channel

open Monitor Transition

/-- A state of the exchange, with the results of `pread` and the values stored in
`mem->bytes_written` by the copy loop so far, in order. -/
structure Recorded where
  state : State
  reads : List ℤ
  chunks : List ℤ

/-- The result of `pread` that a step brings. -/
def State.readBy (s : State) : Act → List ℤ
  | .worker r => if s.wpc = .pread then [r] else []
  | _ => []

/-- The value that a step of the copy loop publishes. -/
def State.publishedBy (s : State) : Act → List ℤ
  | .worker _ => if s.wpc = .publish then [s.wReadLen] else []
  | _ => []

/-- One step of the exchange, recorded. -/
def recordedStep (E : Env) (c : Recorded) (a : Act) : Option Recorded :=
  (step E c.state a).map fun s' =>
    ⟨s', c.reads ++ c.state.readBy a, c.chunks ++ c.state.publishedBy a⟩

def recordedInit (E : Env) : Recorded := ⟨init E, [], []⟩

/-- Recorded runs whose steps all meet `ok`. -/
abbrev RecordedReach (E : Env) (ok : State → Act → Prop) (c : Recorded) : Prop :=
  Reach (recordedStep E) (fun c a => ok c.state a) (recordedInit E) c

/-- Every `pread` of the copy loop returns at least one byte, and the total stays an `int`. -/
def ReadsData (s : State) : Act → Prop
  | .worker r => s.wpc = .pread → 1 ≤ r ∧ s.wBytesWritten + r < 2 ^ 31
  | _ => True

instance (s : State) : (a : Act) → Decidable (ReadsData s a)
  | .worker r => inferInstanceAs (Decidable (s.wpc = .pread → 1 ≤ r ∧ s.wBytesWritten + r < 2 ^ 31))
  | .handler _ | .spuriousHandler | .spuriousWorker => isTrue trivial

/-- What the hand-off owes to the client, whatever `pread` returns. -/
structure HandedOver (E : Env) (c : Recorded) : Prop where
  /-- Each value published lies between 1 and the number of bytes just read. -/
  chunks : List.Forall₂ (fun p r => 1 ≤ p ∧ p ≤ r) c.chunks (c.reads.take c.chunks.length)
  /-- Each length passed to `gfs_send` is at most the number of bytes read for it. -/
  sends : List.Forall₂ (fun x r => (sizeT x.len : ℤ) ≤ r) c.state.sends
    (c.reads.take c.state.sends.length)
  /-- The worker's total never decreases. -/
  total : ∀ a c', recordedStep E c a = some c' → c.state.wBytesWritten ≤ c'.state.wBytesWritten
  /-- The copy loop has finitely many rounds. -/
  rounds : c.chunks.length ≤ E.fileLen.toNat

/-! ### The slot -/

/-- The chunk in the slot has been passed to `gfs_send`. -/
def HPc.taken : HPc → Bool
  | clear | failed => true
  | _ => false

/-- The worker has read a chunk that is not yet in its total. -/
def WPc.hasRead : WPc → Bool
  | publish | signal | unlockSlot | advance => true
  | _ => false

@[simp] theorem HPc.taken_wake (p : HPc) : p.wake.taken = p.taken := by cases p <;> rfl
@[simp] theorem WPc.hasRead_wake (p : WPc) : p.wake.hasRead = p.hasRead := by cases p <;> rfl

/-- The length in the slot that is still to be sent. -/
def State.slot (s : State) : List ℤ :=
  if s.bytesWritten = 0 ∨ s.hpc.taken then [] else [s.bytesWritten]

/-- The length that is read and still to be published. -/
def State.unpublished (s : State) : List ℤ := if s.wpc = .publish then [s.wReadLen] else []

/-- The lengths passed to `gfs_send`, and the one still to be sent. -/
def State.taken (s : State) : List ℤ := s.sends.map Send.len ++ s.slot

section slot
variable {E : Env} {s s' : State} {w r : ℤ}

theorem State.taken_congr (hsends : s'.sends = s.sends) (hbw : s'.bytesWritten = s.bytesWritten)
    (hp : s'.hpc.taken = s.hpc.taken) : s'.taken = s.taken := by
  simp only [State.taken, State.slot, hsends, hbw, hp]

theorem State.taken_wake (s : State) : State.taken { s with hpc := s.hpc.wake } = s.taken :=
  State.taken_congr rfl rfl (HPc.taken_wake _)

/-- The slot is emptied after its chunk was sent, or where it is empty. -/
theorem State.taken_clear (hsends : s'.sends = s.sends) (hbw : s'.bytesWritten = 0)
    (h : s.bytesWritten = 0 ∨ s.hpc.taken) : s'.taken = s.taken := by
  simp only [State.taken, State.slot, hsends, hbw, true_or, if_true, if_pos h]

/-- What a step of the handler does to the slot and to the lengths that it has sent. -/
inductive SlotMove (s s' : State) : Prop
  | send (bytes : List Byte) (result : ℤ) (hp : s.hpc = .send) (hp' : s'.hpc.taken = true)
      (hsends : s'.sends = s.sends ++ [⟨s.readLen, bytes, result⟩])
      (hslot : s'.bytesWritten = s.bytesWritten)
  | clear (hp : s.hpc = .clear) (hp' : s'.hpc ≠ .failed) (hsends : s'.sends = s.sends)
      (hslot : s'.bytesWritten = 0)
  | reset (hp : s.hpc = .createWritten ∨ s.hpc = .destroyWritten) (hp' : s'.hpc ≠ .failed)
      (hsends : s'.sends = s.sends) (hslot : s'.bytesWritten = 0)
  | stay (hp : s'.hpc.taken = s.hpc.taken) (hp' : s'.hpc ≠ .failed)
      (hsends : s'.sends = s.sends) (hslot : s'.bytesWritten = s.bytesWritten)

theorem slotMove_of_handlerStep (h : handlerStep E s w = some s') : SlotMove s s' := by
  cases hp : s.hpc with
  | waitLength p | waitChunk p =>
      simp only [handlerStep, hp, State.waitHandler, Option.map_eq_some_iff] at h
      obtain ⟨⟨op, q⟩, _, rfl⟩ := h
      cases q <;> exact .stay (by rw [hp]; rfl) (by simp) rfl rfl
  | branch =>
      simp only [handlerStep, hp] at h
      split at h <;> obtain rfl := Option.some.inj h <;>
        exact .stay (by rw [hp]; rfl) (by simp) rfl rfl
  | loop =>
      simp only [handlerStep, hp, Option.some.injEq] at h
      subst h
      split <;> exact .stay (by rw [hp]; rfl) (by simp) rfl rfl
  | send =>
      simp only [handlerStep, hp, State.gfsSend, Option.some.injEq] at h
      split at h <;> subst h <;> exact .send _ _ hp rfl rfl rfl
  | clear =>
      simp only [handlerStep, hp, Option.some.injEq] at h
      subst h
      exact .clear hp (by simp) rfl rfl
  | createWritten =>
      simp only [handlerStep, hp, Option.some.injEq] at h
      subst h
      exact .reset (.inl hp) (by simp) rfl rfl
  | destroyWritten =>
      simp only [handlerStep, hp, Option.some.injEq] at h
      subst h
      exact .reset (.inr hp) (by simp) rfl rfl
  | reply =>
      simp only [handlerStep, hp, State.replyWith, Option.some.injEq] at h
      split at h <;> subst h <;> exact .stay (by rw [hp]; rfl) (by simp) rfl rfl
  | returned | failed => simp [handlerStep, hp] at h
  | _ =>
      simp only [handlerStep, hp, Option.some.injEq] at h
      subst h
      exact .stay (by rw [hp]; rfl) (by simp) rfl rfl

theorem Inv.slot_of_send (hI : Inv E s) (hp : s.hpc = .send) :
    s.bytesWritten ≠ 0 ∧ s.readLen = s.bytesWritten := by
  have hH := hI.handler
  simp only [hp, HPc.Ok] at hH
  exact hH.2.2.2.2

/-- **The handler passes on exactly what is published**: it changes neither the lengths sent nor
the one in the slot, taken together. -/
theorem taken_handlerStep (hI : Inv E s) (h : handlerStep E s w = some s') : s'.taken = s.taken := by
  cases slotMove_of_handlerStep h with
  | send bytes result hp hp' hsends hslot =>
      obtain ⟨hb, hr⟩ := hI.slot_of_send hp
      have hbefore : s.slot = [s.readLen] := by simp [State.slot, hp, HPc.taken, hb, hr]
      have hafter : s'.slot = [] := by simp [State.slot, hp']
      simp [State.taken, hbefore, hafter, hsends]
  | clear hp _ hsends hslot => exact State.taken_clear hsends hslot (.inr (by rw [hp]; rfl))
  | reset hp _ hsends hslot => exact State.taken_clear hsends hslot (.inl (hI.empty_of_reset hp))
  | stay hp _ hsends hslot => exact State.taken_congr hsends hslot hp

/-- The handler gives up with a chunk in the slot. -/
theorem full_of_failed (hI : Inv E s) (h : handlerStep E s w = some s') (hf : s'.hpc = .failed) :
    s'.bytesWritten ≠ 0 := by
  cases slotMove_of_handlerStep h with
  | send bytes result hp _ _ hslot =>
      rw [hslot]
      exact (hI.slot_of_send hp).1
  | clear _ hp' | reset _ hp' | stay _ hp' => exact (hp' hf).elim

end slot

/-! ### Moves of the copy loop -/

/-- What a step of the worker does to its total, to `read_len` and to the slot. -/
inductive CopyMove (s s' : State) (r : ℤ) : Prop
  | read (hp : s.wpc = .pread) (hp' : s'.wpc = .publish) (hlen : s'.wReadLen = cInt r)
      (htotal : s'.wBytesWritten = s.wBytesWritten) (hslot : s'.bytesWritten = s.bytesWritten)
  | publish (hp : s.wpc = .publish) (hp' : s'.wpc = .signal) (hlen : s'.wReadLen = s.wReadLen)
      (htotal : s'.wBytesWritten = s.wBytesWritten) (hslot : s'.bytesWritten = s.wReadLen)
  | advance (hp : s.wpc = .advance) (hp' : s'.wpc = .loop)
      (htotal : s'.wBytesWritten = s.wBytesWritten + s.wReadLen)
      (hslot : s'.bytesWritten = s.bytesWritten)
  | start (hp : s.wpc = .branch) (hp' : s'.wpc = .loop) (htotal : s'.wBytesWritten = 0)
      (hslot : s'.bytesWritten = s.bytesWritten)
  | reset (hp : s.wpc = .zeroWritten) (hp' : s'.wpc = .unlockLength)
      (htotal : s'.wBytesWritten = s.wBytesWritten) (hslot : s'.bytesWritten = 0)
  | stay (hp : s.wpc ≠ .pread ∧ s.wpc ≠ .publish) (hp' : s'.wpc ≠ .publish)
      (hphase : s'.wpc.hasRead = s.wpc.hasRead ∧ s'.wpc.inflight = s.wpc.inflight)
      (hlen : s'.wReadLen = s.wReadLen) (htotal : s'.wBytesWritten = s.wBytesWritten)
      (hslot : s'.bytesWritten = s.bytesWritten)

theorem copyMove_of_workerStep {E : Env} {s s' : State} {r : ℤ} (h : workerStep E s r = some s') :
    CopyMove s s' r := by
  cases hp : s.wpc with
  | get =>
      simp only [workerStep, hp, Option.ite_none_right_eq_some] at h
      obtain ⟨_, h⟩ := h
      obtain rfl := Option.some.inj h
      exact .stay (by simp [hp]) (by simp) (by rw [hp]; exact ⟨rfl, rfl⟩) rfl rfl rfl
  | waitLength p | waitSlot p =>
      simp only [workerStep, hp, State.waitWorker, Option.map_eq_some_iff] at h
      obtain ⟨⟨op, q⟩, _, rfl⟩ := h
      cases q <;> exact .stay (by simp [hp]) (by simp) (by rw [hp]; exact ⟨rfl, rfl⟩) rfl rfl rfl
  | zeroWritten =>
      simp only [workerStep, hp, Option.some.injEq] at h
      subst h
      exact .reset hp rfl rfl rfl
  | branch =>
      simp only [workerStep, hp] at h
      split at h <;> obtain rfl := Option.some.inj h
      · exact .stay (by simp [hp]) (by simp) (by rw [hp]; exact ⟨rfl, rfl⟩) rfl rfl rfl
      · exact .start hp rfl rfl rfl
  | loop | checkLength =>
      simp only [workerStep, hp, Option.some.injEq] at h
      subst h
      split <;> exact .stay (by simp [hp]) (by simp) (by rw [hp]; exact ⟨rfl, rfl⟩) rfl rfl rfl
  | pread =>
      simp only [workerStep, hp, Option.ite_none_right_eq_some] at h
      obtain ⟨_, h⟩ := h
      obtain rfl := Option.some.inj h
      exact .read hp rfl rfl rfl rfl
  | publish =>
      simp only [workerStep, hp, Option.some.injEq] at h
      subst h
      exact .publish hp rfl rfl rfl rfl
  | advance =>
      simp only [workerStep, hp, Option.some.injEq] at h
      subst h
      exact .advance hp rfl rfl rfl
  | finished | exited => simp [workerStep, hp] at h
  | _ =>
      simp only [workerStep, hp, Option.some.injEq] at h
      subst h
      exact .stay (by simp [hp]) (by simp) (by rw [hp]; exact ⟨rfl, rfl⟩) rfl rfl rfl

/-! ### Reads of at least one byte -/

/-- What the record says while every read brings data. -/
structure Copied (E : Env) (c : Recorded) : Prop where
  reads : c.reads = c.chunks ++ c.state.unpublished
  taken : c.chunks = c.state.taken
  pos : ∀ r ∈ c.chunks, 1 ≤ r
  readLen : c.state.wpc.hasRead → 1 ≤ c.state.wReadLen
  sum : c.chunks.sum = c.state.published
  total : 0 ≤ c.state.wBytesWritten
  rounds : c.chunks.length ≤ E.fileLen.toNat
  /-- A handler that has given up leaves its chunk in the slot. -/
  full : c.state.hpc = .failed → c.state.bytesWritten ≠ 0

theorem copied_init (E : Env) : Copied E (recordedInit E) where
  reads := by simp [recordedInit, State.unpublished, init]
  taken := by simp [recordedInit, State.taken, State.slot, init]
  pos := by simp [recordedInit]
  readLen := by simp [recordedInit, init, WPc.hasRead]
  sum := by simp [recordedInit, init, State.published, WPc.inflight]
  total := by simp [recordedInit, init]
  rounds := by simp [recordedInit]
  full := by simp [recordedInit, init]

section copied
variable {E : Env} {s s' : State} {w r : ℤ} {reads chunks : List ℤ}

theorem Copied.handlerStep (hI : Inv E s) (hC : Copied E ⟨s, reads, chunks⟩)
    (h : handlerStep E s w = some s') : Copied E ⟨s', reads, chunks⟩ := by
  obtain ⟨⟨_, hww, hrl, _⟩, hwpc⟩ := handlerStep_frame h
  have hH := hI.handler
  obtain ⟨hreads, htaken, hpos, hlen, hsum, htotal, hrounds, hfull⟩ := hC
  refine ⟨?_, htaken.trans (taken_handlerStep hI h).symm, hpos, ?_, ?_, hww ▸ htotal, hrounds,
    full_of_failed hI h⟩
  · rcases hwpc with hwpc | hwpc <;> simpa [State.unpublished, hwpc, hrl] using hreads
  · rcases hwpc with hwpc | hwpc <;> simpa [hwpc, hrl] using hlen
  · rcases hwpc with hwpc | hwpc <;> simpa [State.published, hwpc, hrl, hww] using hsum

/-- The worker leaves the slot alone, reads and publishes nothing. -/
theorem Copied.worker_alone (hC : Copied E ⟨s, reads, chunks⟩) (hsends : s'.sends = s.sends)
    (hhpc : s'.hpc = s.hpc ∨ s'.hpc = s.hpc.wake) (hbw : s'.bytesWritten = s.bytesWritten)
    (hpublish : s.wpc ≠ .publish ∧ s'.wpc ≠ .publish) (hlen : s'.wpc.hasRead → 1 ≤ s'.wReadLen)
    (hpublished : s'.published = s.published) (htotal : 0 ≤ s'.wBytesWritten) :
    Copied E ⟨s', reads, chunks⟩ := by
  obtain ⟨hreads, htaken, hpos, -, hsum, -, hrounds, hfull⟩ := hC
  refine ⟨?_, htaken.trans (State.taken_congr hsends hbw ?_).symm, hpos, hlen,
    hsum.trans hpublished.symm, htotal, hrounds, ?_⟩
  · simpa [State.unpublished, hpublish] using hreads
  · rcases hhpc with hhpc | hhpc <;> simp [hhpc]
  · rcases hhpc with hhpc | hhpc <;> simpa [hhpc, hbw] using hfull

theorem Copied.read (hC : Copied E ⟨s, reads, chunks⟩) (ha : ReadsData s (.worker r))
    (hp : s.wpc = .pread) (hp' : s'.wpc = .publish) (hsends : s'.sends = s.sends)
    (hhpc : s'.hpc = s.hpc ∨ s'.hpc = s.hpc.wake) (hlen : s'.wReadLen = cInt r)
    (htotal' : s'.wBytesWritten = s.wBytesWritten) (hslot : s'.bytesWritten = s.bytesWritten) :
    Copied E ⟨s', reads ++ [r], chunks⟩ := by
  obtain ⟨hreads, htaken, hpos, -, hsum, htotal, hrounds, hfull⟩ := hC
  obtain ⟨hr, hfit⟩ := ha hp
  simp only at htotal
  have hlen : s'.wReadLen = r := hlen.trans (cInt_of_lt (by omega) (by omega))
  have hnew : reads = chunks := by simpa [State.unpublished, hp] using hreads
  refine ⟨?_, htaken.trans (State.taken_congr hsends hslot ?_).symm, hpos, fun _ => ?_, ?_, ?_,
    hrounds, ?_⟩
  · simp [State.unpublished, hp', hnew, hlen]
  · rcases hhpc with hhpc | hhpc <;> simp [hhpc]
  · exact hlen ▸ hr
  · simpa [State.published, hp, hp', htotal', WPc.inflight] using hsum
  · exact htotal' ▸ htotal
  · rcases hhpc with hhpc | hhpc <;> simpa [hhpc, hslot] using hfull

/-- One more chunk is a round below the file length. -/
theorem Copied.round_lt (hI : Inv E s) (hC : Copied E ⟨s, reads, chunks⟩)
    (hp : s.wpc = .publish) : chunks.length < E.fileLen.toNat := by
  have hW := hI.worker
  have hsum := hC.sum
  simp only [hp, WPc.Ok] at hW
  simp only [State.published, hp, WPc.inflight, cond_false, add_zero] at hsum
  have hle : (chunks.length : ℤ) ≤ chunks.sum := by
    simpa using List.card_nsmul_le_sum chunks (1 : ℤ) hC.pos
  omega

/-- Nobody is sending while the worker has the slot. -/
theorem Copied.not_taken (hI : Inv E s) (hC : Copied E ⟨s, reads, chunks⟩)
    (hb : s.bytesWritten = 0) : s.hpc.taken = false := by
  have hH := hI.handler
  cases hq : s.hpc with
  | clear =>
      simp only [hq, HPc.Ok] at hH
      exact (hH.2.2.2.2.1 hb).elim
  | failed => exact (hC.full hq hb).elim
  | _ => rfl

theorem Copied.publish (hI : Inv E s) (hC : Copied E ⟨s, reads, chunks⟩) (hp : s.wpc = .publish)
    (hp' : s'.wpc = .signal) (hsends : s'.sends = s.sends)
    (hhpc : s'.hpc = s.hpc ∨ s'.hpc = s.hpc.wake) (hlen : s'.wReadLen = s.wReadLen)
    (htotal' : s'.wBytesWritten = s.wBytesWritten) (hslot : s'.bytesWritten = s.wReadLen) :
    Copied E ⟨s', reads, chunks ++ [s.wReadLen]⟩ := by
  have hround := hC.round_lt hI hp
  have hW := hI.worker
  simp only [hp, WPc.Ok] at hW
  obtain ⟨_, _, _, _, hb⟩ := hW
  have hnot := hC.not_taken hI hb
  have hnot' : s'.hpc.taken = false := by rcases hhpc with hhpc | hhpc <;> simp [hhpc, hnot]
  obtain ⟨hreads, htaken, hpos, hread, hsum, htotal, hrounds, -⟩ := hC
  have hr : 1 ≤ s.wReadLen := hread (by simp only [hp]; rfl)
  refine ⟨?_, ?_, ?_, fun _ => ?_, ?_, ?_, ?_, fun _ => ?_⟩
  · simpa [State.unpublished, hp, hp'] using hreads
  · -- the slot was empty, and its chunk is still to be sent
    simp only at htaken
    rw [htaken, State.taken, State.taken, State.slot, State.slot, if_pos (.inl hb), if_neg]
    · simp [hsends, hslot]
    · simp only [hnot', Bool.false_eq_true, or_false]
      omega
  · intro x hx
    rcases List.mem_append.mp hx with hx | hx
    · exact hpos x hx
    · rw [List.mem_singleton.mp hx]
      exact hr
  · exact hlen ▸ hr
  · simpa [State.published, hp, hp', hlen, htotal', WPc.inflight] using hsum
  · exact htotal' ▸ htotal
  · rw [List.length_append, List.length_singleton]
    exact hround
  · show s'.bytesWritten ≠ 0
    omega

theorem Copied.workerStep (hI : Inv E s) (hC : Copied E ⟨s, reads, chunks⟩)
    (ha : ReadsData s (.worker r)) (h : workerStep E s r = some s') :
    Copied E ⟨s', reads ++ s.readBy (.worker r), chunks ++ s.publishedBy (.worker r)⟩ := by
  have hW := hI.worker
  have htotal := hC.total
  simp only at htotal
  obtain ⟨⟨_, _, hsends, _⟩, hhpc⟩ := workerStep_frame h
  cases copyMove_of_workerStep h with
  | read hp hp' hlen htotal' hslot =>
      simpa [State.readBy, State.publishedBy, hp] using
        hC.read ha hp hp' hsends hhpc hlen htotal' hslot
  | publish hp hp' hlen htotal' hslot =>
      simpa [State.readBy, State.publishedBy, hp] using
        hC.publish hI hp hp' hsends hhpc hlen htotal' hslot
  | advance hp hp' htotal' hslot =>
      have hr : 1 ≤ s.wReadLen := hC.readLen (by simp only [hp]; rfl)
      have hC' : Copied E ⟨s', reads, chunks⟩ :=
        hC.worker_alone hsends hhpc hslot (by simp [hp, hp']) (by simp [hp', WPc.hasRead])
          (by simp [State.published, hp, hp', htotal', WPc.inflight]) (by omega)
      simpa [State.readBy, State.publishedBy, hp] using hC'
  | start hp hp' htotal' hslot =>
      simp only [hp, WPc.Ok] at hW
      have hC' : Copied E ⟨s', reads, chunks⟩ :=
        hC.worker_alone hsends hhpc hslot (by simp [hp, hp']) (by simp [hp', WPc.hasRead])
          (by simp [State.published, hp, hp', htotal', hW.2.2.2.2, WPc.inflight]) htotal'.ge
      simpa [State.readBy, State.publishedBy, hp] using hC'
  | reset hp hp' htotal' hslot =>
      simp only [hp, WPc.Ok] at hW
      have hC' : Copied E ⟨s', reads, chunks⟩ :=
        hC.worker_alone hsends hhpc (hslot.trans hW.2.2.2.1.symm) (by simp [hp, hp'])
          (by simp [hp', WPc.hasRead])
          (by simp [State.published, hp, hp', htotal', WPc.inflight]) (by omega)
      simpa [State.readBy, State.publishedBy, hp] using hC'
  | stay hp hp' hphase hlen htotal' hslot =>
      have hC' : Copied E ⟨s', reads, chunks⟩ :=
        hC.worker_alone hsends hhpc hslot ⟨hp.2, hp'⟩
          (by rw [hphase.1, hlen]; exact hC.readLen)
          (by simp [State.published, hphase.2, htotal', hlen]) (by omega)
      simpa [State.readBy, State.publishedBy, hp] using hC'

theorem Copied.step {c c' : Recorded} {a : Act} (hI : Inv E c.state) (hC : Copied E c)
    (ha : ReadsData c.state a) (h : recordedStep E c a = some c') : Copied E c' := by
  obtain ⟨s', hs, rfl⟩ := Option.map_eq_some_iff.mp h
  cases a with
  | handler w => simpa [State.readBy, State.publishedBy] using hC.handlerStep hI hs
  | worker r => exact hC.workerStep hI ha hs
  | spuriousHandler =>
      obtain rfl := Option.some.inj hs
      obtain ⟨hreads, htaken, hpos, hlen, hsum, htotal, hrounds, hfull⟩ := hC
      simp only [State.readBy, State.publishedBy, List.append_nil]
      exact ⟨hreads, htaken.trans (State.taken_wake _).symm, hpos, hlen, hsum, htotal, hrounds,
        by simpa using hfull⟩
  | spuriousWorker =>
      obtain rfl := Option.some.inj hs
      obtain ⟨hreads, htaken, hpos, hlen, hsum, htotal, hrounds, hfull⟩ := hC
      simp only [State.readBy, State.publishedBy, List.append_nil]
      exact ⟨by simpa [State.unpublished] using hreads, htaken, hpos, by simpa using hlen,
        by simpa [State.published] using hsum, htotal, hrounds, hfull⟩

theorem Copied.total_le {a : Act} (hI : Inv E s) (hC : Copied E ⟨s, reads, chunks⟩)
    (h : Channel.step E s a = some s') : s.wBytesWritten ≤ s'.wBytesWritten := by
  cases a with
  | handler w => exact (handlerStep_frame h).1.2.1.ge
  | worker r =>
      have hW := hI.worker
      cases copyMove_of_workerStep h with
      | advance hp _ htotal' _ =>
          have hr : 1 ≤ s.wReadLen := hC.readLen (by simp only [hp]; rfl)
          omega
      | start hp _ htotal' _ =>
          simp only [hp, WPc.Ok] at hW
          omega
      | read _ _ _ htotal' _ | publish _ _ _ htotal' _ | reset _ _ htotal' _
      | stay _ _ _ _ htotal' _ => exact htotal'.ge
  | spuriousHandler | spuriousWorker =>
      obtain rfl := Option.some.inj h
      exact le_rfl

/-- The lengths that were read, published and sent agree. -/
theorem Copied.agrees {c : Recorded} (hI : Inv E c.state) (hC : Copied E c) :
    HandedOver E c where
  chunks := by
    rw [hC.reads, List.take_left]
    exact List.forall₂_same.mpr fun x hx => ⟨hC.pos x hx, le_rfl⟩
  sends := by
    have hsent : c.reads.take c.state.sends.length = c.state.sends.map Send.len := by
      rw [hC.reads, hC.taken, State.taken, List.append_assoc]
      exact List.take_left' (by simp)
    rw [hsent, List.forall₂_map_right_iff]
    apply List.forall₂_same.mpr
    intro x hx
    have hx : x.len ∈ c.chunks := by
      rw [hC.taken]
      exact List.mem_append_left _ (List.mem_map_of_mem hx)
    have hpos := hC.pos _ hx
    unfold sizeT
    omega
  total a c' h := by
    obtain ⟨s', hs, rfl⟩ := Option.map_eq_some_iff.mp h
    exact hC.total_le hI hs
  rounds := hC.rounds

end copied

/-! ### Runs -/

section runs
variable {E : Env} {ok : State → Act → Prop} {c : Recorded}

theorem RecordedReach.reachable (h : RecordedReach E ok c) : Reachable E ok c.state :=
  Reach.map Recorded.state h fun c a c' _ ha hs => by
    obtain ⟨s', hstep, rfl⟩ := Option.map_eq_some_iff.mp hs
    exact Reach.single ha hstep

theorem RecordedReach.copied (h : RecordedReach E ReadsData c) : Copied E c :=
  Reach.invariant_of (J := fun c => Inv E c.state) h (fun _ hr => (RecordedReach.reachable hr).inv)
    (copied_init E) fun _ _ _ hI hC ha hs => hC.step hI ha hs

/-- **The hand-off of a run whose reads all bring data.**  Whatever `gfs_send` returns, every
length published, and every length passed to `gfs_send`, is that of a chunk just read; the
worker's total never decreases, and its loop has no more rounds than the file has bytes. -/
theorem handedOver (E : Env) (c : Recorded) (h : RecordedReach E ReadsData c) : HandedOver E c :=
  h.copied.agrees h.reachable.inv

end runs

/-- A file of one byte, and a run in which `pread` and `gfs_send` return `r`. -/
def oneChunk : Env := ⟨.pthread, proxyLayout, cacheLayout, 184, 1024, some [7], kilobyte_lt⟩

def oneChunkRun (r : ℤ) : List Act :=
  List.replicate 3 (.handler r) ++ List.replicate 18 (.worker r) ++ List.replicate 11 (.handler r)

/-- The byte has been sent. -/
def oneChunkSent : Recorded :=
  (execOk (recordedStep oneChunk) (fun c a => ReadsData c.state a) (recordedInit oneChunk)
    (oneChunkRun 1)).getD (recordedInit oneChunk)

theorem handedOver_oneChunk :
    oneChunkSent.state.sends.length = 1 ∧ HandedOver oneChunk oneChunkSent :=
  ⟨by decide +kernel, handedOver oneChunk oneChunkSent (reach_of_execOk (oneChunkRun 1) rfl)⟩

/-- The read has failed. -/
def oneChunkFailed : Recorded :=
  (exec (recordedStep oneChunk) (recordedInit oneChunk) (oneChunkRun (-1))).getD
    (recordedInit oneChunk)

/-- A `pread` that fails is published as the length -1, and `gfs_send` is asked for
`2 ^ 64 - 1` bytes. -/
theorem not_handedOver_failed :
    RecordedReach oneChunk Any oneChunkFailed ∧
      oneChunkFailed.state.sends.map (fun x => sizeT x.len) = [2 ^ 64 - 1] ∧
      ¬ HandedOver oneChunk oneChunkFailed := by
  refine ⟨reach_of_exec (oneChunkRun (-1)) rfl, by decide +kernel, fun h => ?_⟩
  have hchunks : oneChunkFailed.chunks = [-1] := by decide +kernel
  have hreads : oneChunkFailed.reads = [-1] := by decide +kernel
  have hf := h.chunks
  rw [hchunks, hreads] at hf
  simp at hf

end OsProjects.Channel
