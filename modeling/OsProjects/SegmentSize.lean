import OsProjects.PublishedChunks
import OsProjects.Transfer

/-! # The segment size

`segment_size` is the `int` that `atoi` makes of the option `-z`; no side checks it.  The worker
subtracts `sizeof(shm_data)` and 1 from it in `size_t` and gives the result to `pread` as the
count (`Env.count`).

* `copyLoop` — the copy loop of `cache_worker` by itself.
* `Env.count_fits_iff` — the count is positive and the data area holds it exactly from
  `sizeof(shm_data) + 2` on.
* `progresses_iff` — so these are the sizes for which every file is copied in finitely many chunks,
  all inside the segment. -/

namespace OsProjects.Channel

open Monitor Transition

/-- The loop `while (bytes_written < file_len)` of `cache_worker` from the total `total` on, with
the slot empty at every test: the values that it publishes, or `none` after `fuel` rounds. -/
def copyLoop (fileLen : ℤ) (pread : ℤ → ℤ) : ℕ → ℤ → Option (List ℤ)
  | 0, total => if total < fileLen then none else some []
  | fuel + 1, total =>
      if total < fileLen then
        let readLen := cInt (pread total)
        (copyLoop fileLen pread fuel (total + readLen)).map (readLen :: ·)
      else some []

namespace Env

variable (E : Env)

/-- The same exchange over the file `f`. -/
def holding (f : List Byte) : Env := { E with file := some f }

/-- A `pread` that returns the count, or all that is left. -/
def fullRead (off : ℤ) : ℤ := min E.count (E.contents.length - off)

end Env

/-- Every `pread` of the copy loop returns the count, or all that is left. -/
def FullReads (E : Env) (s : State) : Act → Prop
  | .worker r => s.wpc = .pread → r = E.fullRead s.wBytesWritten
  | _ => True

/-- The loop ends after finitely many chunks, each inside the segment, with the file published;
every run publishes these chunks, and all of them before the worker is finished. -/
def CopiesFile (E : Env) : Prop :=
  ∃ fuel chunks, copyLoop E.fileLen E.fullRead fuel 0 = some chunks ∧
    chunks.sum = E.contents.length ∧
    (∀ x ∈ chunks, 1 ≤ x ∧ E.sizeofShmData + x ≤ E.segmentSize) ∧
    ∀ c, RecordedReach E (FullReads E) c →
      c.chunks <+: chunks ∧ (c.state.wpc = .finished → c.chunks = chunks)

/-- What a segment size owes to the copy loop. -/
structure Progresses (E : Env) : Prop where
  pos : 1 ≤ E.count
  inside : E.sizeofShmData + E.count ≤ E.segmentSize
  copies : ∀ f : List Byte, 0 < f.length → f.length < 2 ^ 31 → CopiesFile (E.holding f)

/-! ### The count -/

/-- The count is positive and stays in the segment exactly when the segment has room for the
fields, one byte of data and the byte that is left out. -/
theorem Env.count_fits_iff (E : Env) :
    1 ≤ E.count ∧ (E.sizeofShmData + E.count : ℤ) ≤ E.segmentSize ↔
      (E.sizeofShmData + 2 : ℤ) ≤ E.segmentSize := by
  constructor
  · rintro ⟨hpos, hin⟩
    have hcount := E.count_eq (by omega)
    omega
  · intro h
    have hcount := E.count_eq (by omega)
    omega

/-! ### The loop by itself -/

section loop
variable {E : Env} {total : ℤ}

/-- Where a full read leaves something, it is at least one byte and at most the count. -/
theorem Env.fullRead_bounds (hcount : 1 ≤ E.count) (hlt : total < E.contents.length) :
    1 ≤ E.fullRead total ∧ E.fullRead total ≤ E.count ∧
      total + E.fullRead total ≤ E.contents.length := by
  simp only [Env.fullRead]
  omega

/-- With as many rounds as bytes left, the loop ends and has published them. -/
theorem copyLoop_full (fuel : ℕ) (total : ℤ) (hcount : 1 ≤ E.count)
    (hsmall : E.contents.length < 2 ^ 31) (hnn : 0 ≤ total) (hle : total ≤ E.contents.length)
    (hfuel : E.contents.length - total ≤ fuel) :
    ∃ chunks, copyLoop E.contents.length E.fullRead fuel total = some chunks ∧
      chunks.sum = E.contents.length - total ∧ ∀ x ∈ chunks, 1 ≤ x ∧ x ≤ E.count := by
  induction fuel generalizing total with
  | zero =>
      refine ⟨[], ?_, ?_, by simp⟩
      · rw [copyLoop, if_neg (by omega)]
      · rw [List.sum_nil]
        omega
  | succ fuel ih =>
      rw [copyLoop]
      split
      · next hlt =>
          obtain ⟨hpos, hmax, hend⟩ := Env.fullRead_bounds hcount hlt
          have hcint : cInt (E.fullRead total) = E.fullRead total :=
            cInt_of_lt (by omega) (by omega)
          obtain ⟨rest, hrest, hsum, hmem⟩ :=
            ih (total + E.fullRead total) (by omega) hend (by omega)
          refine ⟨E.fullRead total :: rest, by simp [hcint, hrest], ?_, ?_⟩
          · rw [List.sum_cons, hsum]
            omega
          · simpa using ⟨⟨hpos, hmax⟩, hmem⟩
      · refine ⟨[], rfl, ?_, by simp⟩
        rw [List.sum_nil]
        omega

theorem copyLoop_stuck {fileLen : ℤ} {pread : ℤ → ℤ} (fuel : ℕ) (hlt : total < fileLen)
    (hread : cInt (pread total) = 0) : copyLoop fileLen pread fuel total = none := by
  induction fuel with
  | zero => rw [copyLoop, if_pos hlt]
  | succ fuel ih =>
      rw [copyLoop, if_pos hlt]
      simp only [hread, add_zero, ih, Option.map_none]

end loop

/-! ### The loop in a run -/

/-- A run publishes a piece of what the loop publishes by itself; the loop goes on from there. -/
structure Follows (E : Env) (chunks : List ℤ) (c : Recorded) : Prop where
  rest : ∃ fuel rest, copyLoop E.fileLen E.fullRead fuel c.chunks.sum = some rest ∧
    chunks = c.chunks ++ rest
  next : c.state.wpc = .publish →
    c.state.wReadLen = cInt (E.fullRead c.state.wBytesWritten)

section follows
variable {E : Env} {s s' : State} {r : ℤ} {chunks : List ℤ} {c c' : Recorded}

theorem publish_of_workerStep (h : workerStep E s r = some s') (hp' : s'.wpc = .publish) :
    s.wpc = .pread ∧ s'.wReadLen = cInt r ∧ s'.wBytesWritten = s.wBytesWritten := by
  cases copyMove_of_workerStep h with
  | read hp _ hlen htotal _ => exact ⟨hp, hlen, htotal⟩
  | stay _ hne _ _ _ _ => exact (hne hp').elim
  | publish _ hp _ _ _ | advance _ hp _ _ | start _ hp _ _ | reset _ hp _ _ =>
      rw [hp] at hp'
      cases hp'

theorem Follows.publish (hI : Inv E c.state) (hC : Copied E c) (hF : Follows E chunks c)
    (hp : c.state.wpc = .publish) :
    ∃ fuel rest, copyLoop E.fileLen E.fullRead fuel (c.chunks ++ [c.state.wReadLen]).sum = some rest ∧
      chunks = c.chunks ++ [c.state.wReadLen] ++ rest := by
  have hW := hI.worker
  have hsum := hC.sum
  simp only [hp, WPc.Ok] at hW
  simp only [State.published, hp, WPc.inflight, cond_false, add_zero] at hsum
  obtain ⟨fuel, rest, hrest, hchunks⟩ := hF.rest
  have hnext := hF.next hp
  have hlt : c.state.wBytesWritten < E.fileLen := hW.2.2.2.1
  rw [hsum] at hrest
  cases fuel with
  | zero =>
      rw [copyLoop, if_pos hlt] at hrest
      cases hrest
  | succ fuel =>
      rw [copyLoop, if_pos hlt, Option.map_eq_some_iff] at hrest
      obtain ⟨rest', hrest', rfl⟩ := hrest
      refine ⟨fuel, rest', ?_, ?_⟩
      · rw [List.sum_append, List.sum_singleton, hsum, hnext]
        exact hrest'
      · rw [hchunks, hnext, List.append_assoc]
        rfl

theorem Follows.step {a : Act} (hI : Inv E c.state) (hC : Copied E c) (hF : Follows E chunks c)
    (ha : FullReads E c.state a) (h : recordedStep E c a = some c') : Follows E chunks c' := by
  obtain ⟨s', hs, rfl⟩ := Option.map_eq_some_iff.mp h
  cases a with
  | handler w =>
      obtain ⟨⟨_, hww, hrl, _⟩, hwpc⟩ := handlerStep_frame hs
      refine ⟨by simpa [State.publishedBy] using hF.rest, ?_⟩
      rcases hwpc with hwpc | hwpc <;> simpa [hwpc, hww, hrl] using hF.next
  | worker r =>
      constructor
      · by_cases hp : c.state.wpc = .publish
        · simpa only [State.publishedBy, hp, if_true] using hF.publish hI hC hp
        · simpa only [State.publishedBy, hp, if_false, List.append_nil] using hF.rest
      · intro hp'
        obtain ⟨hp, hrl, hww⟩ := publish_of_workerStep hs hp'
        rw [hrl, hww, ha hp]
  | spuriousHandler =>
      obtain rfl := Option.some.inj hs
      exact ⟨by simpa [State.publishedBy] using hF.rest, hF.next⟩
  | spuriousWorker =>
      obtain rfl := Option.some.inj hs
      exact ⟨by simpa [State.publishedBy] using hF.rest, by simpa using hF.next⟩

end follows

section runs
variable {E : Env} {chunks : List ℤ} {c : Recorded}

theorem RecordedReach.readsData (hcount : 1 ≤ E.count) (hsmall : E.contents.length < 2 ^ 31)
    (hlen : E.fileLen = E.contents.length) (h : RecordedReach E (FullReads E) c) :
    RecordedReach E ReadsData c := by
  apply Reach.imp h
  intro c a hr ha
  cases a with
  | worker r =>
      intro hp
      have hW := (RecordedReach.reachable hr).inv.worker
      simp only [hp, WPc.Ok] at hW
      obtain ⟨hpos, _, hend⟩ := Env.fullRead_bounds hcount (hlen ▸ hW.2.2.2.1)
      rw [ha hp]
      omega
  | handler w | spuriousHandler | spuriousWorker => trivial

theorem RecordedReach.follows {fuel : ℕ} (hcount : 1 ≤ E.count)
    (hsmall : E.contents.length < 2 ^ 31) (hlen : E.fileLen = E.contents.length)
    (hloop : copyLoop E.fileLen E.fullRead fuel 0 = some chunks)
    (h : RecordedReach E (FullReads E) c) : Follows E chunks c := by
  have hinit : Follows E chunks (recordedInit E) :=
    ⟨⟨fuel, chunks, hloop, rfl⟩, fun hp => by cases hp⟩
  refine Reach.invariant_of (J := fun c => Inv E c.state ∧ Copied E c) h (fun c hr => ?_) hinit
    fun c a c' hJ hF ha hs => hF.step hJ.1 hJ.2 ha hs
  have hr := RecordedReach.readsData hcount hsmall hlen hr
  exact ⟨hr.reachable.inv, hr.copied⟩

theorem Follows.finished (hI : Inv E c.state) (hC : Copied E c) (hF : Follows E chunks c)
    (hp : c.state.wpc = .finished) : c.chunks = chunks := by
  have hW := hI.worker
  have hsum := hC.sum
  simp only [hp, WPc.Ok] at hW
  simp only [State.published, hp, WPc.inflight, cond_false, add_zero] at hsum
  obtain ⟨fuel, rest, hrest, hchunks⟩ := hF.rest
  have hle : ¬ c.chunks.sum < E.fileLen := by omega
  cases fuel <;> rw [copyLoop, if_neg hle] at hrest <;> obtain rfl := Option.some.inj hrest <;>
    simp [hchunks]

theorem copiesFile_of_fits (hcount : 1 ≤ E.count)
    (hin : (E.sizeofShmData + E.count : ℤ) ≤ E.segmentSize) (hsmall : E.contents.length < 2 ^ 31)
    (hlen : E.fileLen = E.contents.length) : CopiesFile E := by
  obtain ⟨chunks, hloop, hsum, hmem⟩ := copyLoop_full E.contents.length 0 hcount hsmall
    le_rfl (by omega) (by omega)
  rw [← hlen] at hloop
  refine ⟨E.contents.length, chunks, hloop, by omega, fun x hx => ?_, fun c hr => ?_⟩
  · obtain ⟨hpos, hmax⟩ := hmem x hx
    exact ⟨hpos, by omega⟩
  · have hF := RecordedReach.follows hcount hsmall hlen hloop hr
    have hr' := RecordedReach.readsData hcount hsmall hlen hr
    refine ⟨?_, hF.finished hr'.reachable.inv hr'.copied⟩
    obtain ⟨_, rest, _, hchunks⟩ := hF.rest
    exact ⟨rest, hchunks.symm⟩

end runs

/-- **The segment size**: the count is at least 1, and the copy loop copies every file in finitely
many chunks, all inside the segment, exactly for the sizes with room for the fields and two more
bytes. -/
theorem progresses_iff (E : Env) :
    Progresses E ↔ (E.sizeofShmData + 2 : ℤ) ≤ E.segmentSize := by
  rw [← E.count_fits_iff]
  constructor
  · intro h
    exact ⟨h.pos, h.inside⟩
  · rintro ⟨hcount, hin⟩
    refine ⟨hcount, hin, fun f _ hsmall => ?_⟩
    have hlen : (E.holding f).fileLen = (E.holding f).contents.length :=
      cInt_of_lt (by omega) (by simpa using hsmall)
    exact copiesFile_of_fits hcount hin hsmall hlen

/-- A segment with one byte behind its fields, and a file of one byte. -/
def tightSegment : Env := ⟨.pthread, proxyLayout, cacheLayout, 184, 185, some [7], by decide⟩

/-- The count is 0, and the loop goes on for ever. -/
theorem not_progresses_tight : ¬ CopiesFile tightSegment ∧ ¬ Progresses tightSegment := by
  constructor
  · rintro ⟨fuel, chunks, hloop, _⟩
    rw [copyLoop_stuck fuel (by decide) (by decide)] at hloop
    cases hloop
  · intro h
    exact absurd h.pos (by decide)

end OsProjects.Channel
