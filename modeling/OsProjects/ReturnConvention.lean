import OsProjects.CurlHandler
import OsProjects.PublishedChunks
import OsProjects.AnnouncedLength
import OsProjects.Transfer

/-! # What the handlers of the proxy return

A handler "should only return a negative value to signal an error"; both handlers return
`EXIT_FAILURE`, which is 1, when `gfs_send` fails.

* `TellsResult` — the convention, for the value returned and the bytes accepted and announced.
* `tells_cache_iff`, `tells_curl_iff` — the ends of each handler that keep it: those without a
  failure of `gfs_send`.
* `sentAsAnnounced_iff` — for files that an `int` can measure, that no call is short is all that
  `handle_with_cache` needs.
* `convention_iff` — both handlers. -/

namespace OsProjects

/-- A value that is not negative is the number of bytes accepted, and these are all that were
announced. -/
def TellsResult (ret accepted announced : ℤ) : Prop :=
  0 ≤ ret → ret = accepted ∧ accepted = announced

theorem tellsResult_one (accepted announced : ℤ) :
    TellsResult 1 accepted announced ↔ accepted = 1 ∧ announced = 1 := by
  unfold TellsResult
  omega

/-! ### `handle_with_cache` -/

namespace Channel

open Transition

/-- The bytes accepted by `gfs_send` so far. -/
def State.accepted (s : State) : ℤ := (s.sends.map fun x => max x.result 0).sum

/-- Every call of `gfs_send` has accepted all that it was given. -/
def State.Whole (s : State) : Prop := ∀ x ∈ s.sends, x.result = x.len

/-- No call was short, and the chunks add up to the length announced; or a single byte was announced
and is accepted, where `EXIT_FAILURE` happens to be right. -/
def State.SentAsAnnounced (s : State) (announced : ℕ) : Prop :=
  s.Whole ∧ (s.sends.map Send.len).sum = announced ∨ announced = 1 ∧ s.accepted = 1

/-- What the program point of the handler says of its calls. -/
structure Judged (s : State) : Prop where
  whole : s.hpc ≠ .failed → s.Whole
  failed : s.hpc = .failed → s.ret = some 1 ∧ ¬s.Whole

section judged
variable {E : Env} {s s' : State} {w r : ℤ}

theorem judged_init (E : Env) : Judged (init E) where
  whole _ := List.forall_mem_nil _
  failed h := nomatch h

/-- The call of `gfs_send`, and the test of its result. -/
theorem Judged.gfsSend (hJ : Judged s) (hp : s.hpc = .send) (w : ℤ) : Judged (s.gfsSend w) := by
  have hbefore := hJ.whole (by rw [hp]; exact HPc.noConfusion)
  unfold State.gfsSend
  dsimp only
  by_cases hshort : cInt w ≠ s.readLen
  · rw [if_pos hshort]
    refine ⟨fun h => absurd rfl h, fun _ => ⟨rfl, fun hwhole => hshort ?_⟩⟩
    exact hwhole _ (List.mem_append_right _ (List.mem_singleton_self _))
  · rw [if_neg hshort]
    refine ⟨fun _ x hx => ?_, fun h => nomatch h⟩
    obtain hx | hx := List.mem_append.mp hx
    · exact hbefore x hx
    · rw [List.mem_singleton.mp hx]
      exact not_not.mp hshort

theorem Judged.same (hJ : Judged s) (hp : s.hpc ≠ .failed) (hp' : s'.hpc ≠ .failed)
    (hsends : s'.sends = s.sends) : Judged s' where
  whole _ := by
    rw [State.Whole, hsends]
    exact hJ.whole hp
  failed h := absurd h hp'

theorem Judged.handlerStep (hJ : Judged s) (h : handlerStep E s w = some s') : Judged s' := by
  have hp : s.hpc ≠ .failed := by
    intro hp
    simp [Channel.handlerStep, hp] at h
  cases slotMove_of_handlerStep h with
  | send _ _ hsend =>
      simp only [Channel.handlerStep, hsend, Option.some.injEq] at h
      rw [← h]
      exact hJ.gfsSend hsend w
  | clear _ hp' hsends | reset _ hp' hsends | stay _ hp' hsends => exact hJ.same hp hp' hsends

theorem Judged.other (hJ : Judged s) (hp : s'.hpc = s.hpc ∨ s'.hpc = s.hpc.wake)
    (hsends : s'.sends = s.sends) (hret : s'.ret = s.ret) : Judged s' := by
  have hfailed : s'.hpc = .failed ↔ s.hpc = .failed := by
    obtain hp | hp := hp
    · rw [hp]
    · rw [hp]
      exact HPc.wake_eq_iff (by simp) (by simp)
  refine ⟨fun h => ?_, fun h => ?_⟩
  · rw [State.Whole, hsends]
    exact hJ.whole fun hp => h (hfailed.mpr hp)
  · rw [State.Whole, hsends, hret]
    exact hJ.failed (hfailed.mp h)

theorem Judged.step {a : Act} (hJ : Judged s) (h : step E s a = some s') : Judged s' := by
  cases a with
  | handler w => exact hJ.handlerStep h
  | worker r =>
      obtain ⟨⟨_, _, hsends, hret⟩, hp⟩ := workerStep_frame h
      exact hJ.other hp hsends hret
  | spuriousHandler =>
      obtain rfl := Option.some.inj h
      exact hJ.other (.inr rfl) rfl rfl
  | spuriousWorker =>
      obtain rfl := Option.some.inj h
      exact hJ.other (.inl rfl) rfl rfl

theorem Reachable.judged {ok : State → Act → Prop} (h : Reachable E ok s) : Judged s :=
  h.invariant (judged_init E) fun _ _ _ hJ _ hs => hJ.step hs

end judged

section cache
variable {E : Env} {c : Recorded} {n : ℕ}

/-- Calls that accept everything have accepted what they were given. -/
theorem State.Whole.accepted {s : State} (h : s.Whole) (hpos : ∀ x ∈ s.sends, 1 ≤ x.len) :
    s.accepted = (s.sends.map Send.len).sum := by
  unfold State.accepted
  congr 1
  apply List.map_congr_left
  intro x hx
  have hlen := hpos x hx
  rw [h x hx]
  omega

/-- The lengths given to `gfs_send` are those of chunks. -/
theorem Copied.len_pos (hC : Copied E c) : ∀ x ∈ c.state.sends, 1 ≤ x.len := by
  intro x hx
  apply hC.pos _
  rw [hC.taken]
  exact List.mem_append_left _ (List.mem_map_of_mem hx)

/-- A handler that has returned has added up the lengths that it has sent. -/
theorem Copied.sum_sent (hI : Inv E c.state) (hC : Copied E c) (hp : c.state.hpc = .returned) :
    (c.state.sends.map Send.len).sum = c.state.bytesTransferred := by
  have hsum := hC.sum
  have hcount := hI.count
  have hslot : c.state.slot.sum = c.state.bytesWritten := by
    unfold State.slot
    rw [hp]
    by_cases hb : c.state.bytesWritten = 0
    · rw [if_pos (.inl hb), hb]
      rfl
    · rw [if_neg (by simp [hb, HPc.taken])]
      exact List.sum_singleton
  rw [hC.taken, State.taken, List.sum_append, hslot] at hsum
  simp only [State.cleared, hp, HPc.inflight, cond_false] at hcount
  omega

/-- The length in a header is that of the file, as an `int`. -/
theorem Told.announced {s : State} (hT : Told E s) (hh : (.ok, n) ∈ s.headers) :
    0 < E.fileLen ∧ (n : ℤ) = E.fileLen := by
  obtain ⟨hne, heq⟩ := hT.headers _ hh
  unfold Env.lengthHeader at heq
  split at heq
  · cases heq
  · next hnn =>
      have hlt : E.fileLen < 2 ^ 31 := by
        unfold Env.fileLen
        split
        · exact cInt_lt _
        · decide
      have hn := (Prod.mk.inj heq).2
      rw [sizeT_of_nonneg (by omega) (by omega)] at hn
      omega

/-- **The end of `handle_with_cache`** behind a header `GF_OK`. -/
theorem tells_cache_iff (h : RecordedReach E ReadsData c) (hret : c.state.Returned)
    (hh : (.ok, n) ∈ c.state.headers) :
    (∀ ret, c.state.ret = some ret → TellsResult ret c.state.accepted n) ↔
      c.state.SentAsAnnounced n := by
  have hI := h.reachable.inv
  have hC := h.copied
  have hJ := h.reachable.judged
  obtain ⟨hlen, hn⟩ := h.reachable.told.announced hh
  unfold State.SentAsAnnounced
  obtain hp | hp := hret
  · have hwhole : c.state.Whole := hJ.whole (by rw [hp]; exact HPc.noConfusion)
    have haccepted := (hwhole.accepted hC.len_pos).trans (hC.sum_sent hI hp)
    have hH := hI.handler
    simp only [hp, HPc.Ok] at hH
    obtain ⟨_, _, _, hall⟩ := hH
    have hchunks := hC.sum_sent hI hp
    rw [(h.reachable.reported hlen).ret hp, and_iff_right hwhole, haccepted, hchunks]
    simp only [Option.some.injEq, forall_eq', TellsResult, true_and]
    constructor
    · exact fun heq => .inl (heq (by omega))
    · rintro (heq | ⟨rfl, hone⟩) _
      · exact heq
      · exact hone
  · obtain ⟨hone, hshort⟩ := hJ.failed hp
    rw [hone, or_iff_right fun hwhole => hshort hwhole.1]
    simp only [Option.some.injEq, forall_eq']
    rw [tellsResult_one]
    omega

end cache

/-! ### Files that an `int` can measure -/

/-- What was published, and what is about to be, lies in the file. -/
structure InFile (E : Env) (s : State) : Prop where
  published : s.published ≤ E.contents.length
  chunk : s.wpc = .publish → s.wBytesWritten + s.wReadLen ≤ E.contents.length

section inFile
variable {E : Env} {s s' : State} {c : Recorded} {w r : ℤ} {n : ℕ}

theorem inFile_init (E : Env) : InFile E (init E) where
  published := by simp [init, State.published, WPc.inflight]
  chunk h := nomatch h

theorem InFile.same (hF : InFile E s) (hp : s'.wpc = s.wpc ∨ s'.wpc = s.wpc.wake)
    (htotal : s'.wBytesWritten = s.wBytesWritten) (hlen : s'.wReadLen = s.wReadLen) :
    InFile E s' := by
  have hinflight : s'.wpc.inflight = s.wpc.inflight := by
    obtain hp | hp := hp <;> simp [hp]
  have hpublish : s'.wpc = .publish ↔ s.wpc = .publish := by
    obtain hp | hp := hp
    · rw [hp]
    · rw [hp]
      exact WPc.wake_eq_iff (by simp) (by simp)
  constructor
  · rw [State.published, hinflight, htotal, hlen]
    exact hF.published
  · rw [hpublish, htotal, hlen]
    exact hF.chunk

theorem InFile.workerStep (hF : InFile E s) (ha : ReadsData s (.worker r))
    (htotal : 0 ≤ s.wBytesWritten) (h : workerStep E s r = some s') : InFile E s' := by
  obtain ⟨hpub, hchunk⟩ := hF
  unfold State.published at hpub
  cases copyMove_of_workerStep h with
  | read hp hp' hlen htotal' =>
      obtain ⟨hr, hfit⟩ := ha hp
      simp only [Channel.workerStep, hp, Option.ite_none_right_eq_some] at h
      have hok : s.wBytesWritten + r ≤ E.contents.length := by
        obtain hfail | ⟨_, _, _, hok⟩ := h.1
        · omega
        · exact hok
      rw [cInt_of_lt (by omega) (by omega)] at hlen
      refine ⟨?_, fun _ => by rwa [htotal', hlen]⟩
      simp only [hp, WPc.inflight, cond_false] at hpub
      simp only [State.published, hp', WPc.inflight, cond_false, htotal']
      exact hpub
  | publish hp hp' hlen htotal' =>
      refine ⟨?_, fun hpublish => by simp [hp'] at hpublish⟩
      simp only [State.published, hp', WPc.inflight, cond_true, htotal', hlen]
      exact hchunk hp
  | advance hp hp' htotal' =>
      refine ⟨?_, fun hpublish => by simp [hp'] at hpublish⟩
      simp only [hp, WPc.inflight, cond_true] at hpub
      simp only [State.published, hp', WPc.inflight, cond_false, htotal']
      omega
  | start hp hp' htotal' =>
      refine ⟨?_, fun hpublish => by simp [hp'] at hpublish⟩
      simp only [State.published, hp', WPc.inflight, cond_false, htotal']
      omega
  | reset hp hp' htotal' =>
      refine ⟨?_, fun hpublish => by simp [hp'] at hpublish⟩
      simp only [hp, WPc.inflight, cond_false] at hpub
      simp only [State.published, hp', WPc.inflight, cond_false, htotal']
      exact hpub
  | stay _ hp' hphase hlen htotal' =>
      refine ⟨?_, fun hpublish => absurd hpublish hp'⟩
      rw [State.published, hphase.2, htotal', hlen]
      exact hpub

theorem InFile.step {a : Act} (hF : InFile E s) (ha : ReadsData s a) (htotal : 0 ≤ s.wBytesWritten)
    (h : Channel.step E s a = some s') : InFile E s' := by
  cases a with
  | handler w =>
      obtain ⟨⟨_, htotal', hlen, _⟩, hp⟩ := handlerStep_frame h
      exact hF.same hp htotal' hlen
  | worker r => exact hF.workerStep ha htotal h
  | spuriousHandler =>
      obtain rfl := Option.some.inj h
      exact hF.same (.inl rfl) rfl rfl
  | spuriousWorker =>
      obtain rfl := Option.some.inj h
      exact hF.same (.inr rfl) rfl rfl

theorem RecordedReach.inFile (h : RecordedReach E ReadsData c) : InFile E c.state :=
  Reach.invariant_of (I := fun c => InFile E c.state) (J := Copied E) h
    (fun _ hr => RecordedReach.copied hr) (inFile_init E) fun c a c' hC hF ha hs => by
      obtain ⟨s', hstep, rfl⟩ := Option.map_eq_some_iff.mp hs
      exact hF.step ha hC.total hstep

theorem RecordedReach.sum_sent_le (h : RecordedReach E ReadsData c) :
    (c.state.sends.map Send.len).sum ≤ E.contents.length := by
  have hC := h.copied
  have hpub := h.inFile.published
  have hslot : 0 ≤ c.state.slot.sum := by
    apply List.sum_nonneg
    intro x hx
    have hpos : 1 ≤ x := hC.pos x (by rw [hC.taken]; exact List.mem_append_right _ hx)
    omega
  rw [← hC.sum, hC.taken, State.taken, List.sum_append] at hpub
  omega

theorem accepted_lt (hatMost : ∀ x ∈ s.sends, x.result ≤ x.len) (hpos : ∀ x ∈ s.sends, 1 ≤ x.len)
    (hshort : ¬s.Whole) : s.accepted < (s.sends.map Send.len).sum := by
  unfold State.Whole at hshort
  push Not at hshort
  obtain ⟨x, hx, hne⟩ := hshort
  unfold State.accepted
  refine List.sum_lt_sum _ _ (fun y hy => ?_) ⟨x, hx, ?_⟩
  · have hy₁ := hatMost y hy
    have hy₂ := hpos y hy
    omega
  · have hx₁ := hatMost x hx
    have hx₂ := hpos x hx
    omega

/-- **For a file of less than `2 ^ 31` bytes** that no call of `gfs_send` is short is all that is
needed. -/
theorem sentAsAnnounced_iff (h : RecordedReach E ReadsData c) (hret : c.state.Returned)
    (hh : (.ok, n) ∈ c.state.headers) (hsmall : E.contents.length < 2 ^ 31)
    (hatMost : ∀ x ∈ c.state.sends, x.result ≤ x.len) :
    c.state.SentAsAnnounced n ↔ c.state.Whole := by
  have hI := h.reachable.inv
  have hC := h.copied
  have hle := h.sum_sent_le
  obtain ⟨hpos, hn⟩ := h.reachable.told.announced hh
  have hlen : E.fileLen = E.contents.length := by
    unfold Env.fileLen Env.contents at *
    cases hfile : E.file with
    | none => simp [hfile] at hpos
    | some f =>
        simp only [hfile, Option.getD_some] at hsmall ⊢
        exact cInt_of_lt (by omega) (by omega)
  constructor
  · rintro (⟨hwhole, _⟩ | ⟨rfl, hone⟩)
    · exact hwhole
    · by_contra hshort
      have hlt := accepted_lt hatMost hC.len_pos hshort
      omega
  · intro hwhole
    have hp : c.state.hpc = .returned :=
      hret.resolve_right fun hp => (h.reachable.judged.failed hp).2 hwhole
    have hH := hI.handler
    simp only [hp, HPc.Ok] at hH
    obtain ⟨_, _, _, hall⟩ := hH
    have hsum := hC.sum_sent hI hp
    exact .inl ⟨hwhole, by omega⟩

end inFile

end Channel

/-! ### `handle_with_curl` -/

namespace Curl

/-- The bytes accepted by `gfs_send` so far. -/
def SendLoop.accepted (s : SendLoop) : ℤ := (s.sends.map fun x => max x.result 0).sum

/-- Every call of `gfs_send` has accepted something. -/
def SendLoop.NoneFails (s : SendLoop) : Prop := ∀ x ∈ s.sends, 0 < x.result

/-- From `b` bytes on, no call accepts more than it is asked for. -/
def AcceptsAtMost (fileLen : ℕ) : ℕ → List ℤ → Prop
  | _, [] => True
  | b, writeLen :: results =>
      b < fileLen → writeLen ≤ asked fileLen b ∧
        (0 < writeLen → AcceptsAtMost fileLen (b + writeLen.toNat) results)

/-- What holds in front of each turn. -/
structure Counted (fileLen : ℕ) (s : SendLoop) : Prop where
  offset : s.offset = cInt s.bytesTransferred
  inside : s.bytesTransferred ≤ fileLen
  accepted : s.accepted = s.bytesTransferred
  noneFails : s.NoneFails

section curl
variable {fileLen n : ℕ} {s s' : SendLoop} {w ret : ℤ} {results : List ℤ}

theorem counted_atLoop (fileLen : ℕ) : Counted fileLen (atLoop fileLen) where
  offset := show (0 : ℤ) = cInt (0 : ℕ) by decide
  inside := Nat.zero_le fileLen
  accepted := rfl
  noneFails := List.forall_mem_nil _

theorem accepted_gfsSend (fileLen : ℕ) (s : SendLoop) (w : ℤ) :
    (s.gfsSend fileLen w).accepted = s.accepted + max w 0 := by
  unfold SendLoop.accepted SendLoop.gfsSend
  rw [List.map_append, List.sum_append, List.map_singleton, List.sum_singleton]

theorem Counted.turn (hC : Counted fileLen s) (hlen : fileLen < 2 ^ 53)
    (hlt : s.bytesTransferred < fileLen) (hw : 0 < w)
    (hasked : w ≤ asked fileLen s.bytesTransferred) :
    Counted fileLen ((s.gfsSend fileLen w).advance w) := by
  have hle := asked_le fileLen s.bytesTransferred
  obtain ⟨hbytes, hoffset⟩ := turn_counters fileLen hC.offset hw (by omega)
  refine ⟨?_, ?_, ?_, ?_⟩
  · rw [hoffset, hbytes]
  · rw [hbytes]
    omega
  · have hcall := accepted_gfsSend fileLen s w
    rw [hC.accepted] at hcall
    rw [hbytes]
    exact hcall.trans (by omega)
  · intro x hx
    obtain hx | hx := List.mem_append.mp hx
    · exact hC.noneFails x hx
    · rw [List.mem_singleton.mp hx]
      exact hw

theorem Counted.done (hC : Counted fileLen s) (hge : ¬s.bytesTransferred < fileLen)
    (hend : .returned s.bytesTransferred s = Handler.returned ret s') :
    TellsResult ret s'.accepted fileLen ↔ s'.NoneFails := by
  obtain ⟨rfl, rfl⟩ := Handler.returned.inj hend
  have hinside := hC.inside
  have haccepted := hC.accepted
  exact iff_of_true (fun _ => ⟨haccepted.symm, by omega⟩) hC.noneFails

theorem Counted.loop (hlen : fileLen < 2 ^ 53) (hC : Counted fileLen s)
    (hatMost : AcceptsAtMost fileLen s.bytesTransferred results)
    (hend : sendLoop fileLen s results = .returned ret s') :
    TellsResult ret s'.accepted fileLen ↔ s'.NoneFails := by
  induction results generalizing s with
  | nil =>
      unfold sendLoop at hend
      split at hend
      · cases hend
      · next hge => exact hC.done hge hend
  | cons w results ih =>
      unfold sendLoop at hend
      by_cases hlt : s.bytesTransferred < fileLen
      · obtain ⟨hasked, hmore⟩ := hatMost hlt
        rw [if_pos hlt] at hend
        by_cases hw : w ≤ 0
        · -- `EXIT_FAILURE`, with fewer bytes accepted than announced
          rw [if_pos hw] at hend
          obtain ⟨rfl, rfl⟩ := Handler.returned.inj hend
          have haccepted := accepted_gfsSend fileLen s w
          rw [hC.accepted] at haccepted
          rw [tellsResult_one, haccepted]
          apply iff_of_false (by omega)
          intro hnone
          have hfails := hnone _ (List.mem_append_right _ (List.mem_singleton_self _))
          exact absurd hfails (not_lt.mpr hw)
        · rw [if_neg hw] at hend
          have hw := not_le.mp hw
          have hturn := hC.turn hlen hlt hw hasked
          have hle := asked_le fileLen s.bytesTransferred
          obtain ⟨hbytes, -⟩ := turn_counters fileLen hC.offset hw (by omega)
          have hmore := hmore hw
          rw [← hbytes] at hmore
          exact ih hturn hmore hend
      · rw [if_neg hlt] at hend
        exact hC.done hlt hend

/-- **The end of `handle_with_curl`** behind a header `GF_OK`. -/
theorem tells_curl_iff (hlen : fileLen < 2 ^ 53) (hatMost : AcceptsAtMost fileLen 0 results)
    {header : ℤ} (hend : handleWithCurl true (some fileLen) header results = .returned ret s) :
    TellsResult ret s.accepted fileLen ↔ s.NoneFails :=
  (counted_atLoop fileLen).loop hlen hatMost hend

end curl

end Curl

/-! ### Both handlers -/

/-- **The convention is kept exactly where `gfs_send` does not fail.** Behind a header `GF_OK`,
`handle_with_cache` keeps it for a file of less than `2 ^ 31` bytes if and only if no call is short;
a longer file is announced modulo `2 ^ 32`, and the chunks must add up to that too.
`handle_with_curl` keeps it if and only if every call accepts something. -/
theorem convention_iff (E : Channel.Env) (c : Channel.Recorded) (n fileLen : ℕ)
    (results : List ℤ) (header ret : ℤ) (s : Curl.SendLoop) :
    (Channel.RecordedReach E Channel.ReadsData c → c.state.Returned →
      (.ok, n) ∈ c.state.headers →
        (E.contents.length < 2 ^ 31 → (∀ x ∈ c.state.sends, x.result ≤ x.len) →
          ((∀ ret, c.state.ret = some ret → TellsResult ret c.state.accepted n) ↔
            c.state.Whole)) ∧
        ((∀ ret, c.state.ret = some ret → TellsResult ret c.state.accepted n) ↔
          c.state.SentAsAnnounced n)) ∧
    (fileLen < 2 ^ 53 → Curl.AcceptsAtMost fileLen 0 results →
      Curl.handleWithCurl true (some fileLen) header results = .returned ret s →
        (TellsResult ret s.accepted fileLen ↔ s.NoneFails)) := by
  refine ⟨fun h hret hh => ⟨fun hsmall hatMost => ?_, Channel.tells_cache_iff h hret hh⟩,
    fun hlen hatMost hend => Curl.tells_curl_iff hlen hatMost hend⟩
  rw [Channel.tells_cache_iff h hret hh]
  exact Channel.sentAsAnnounced_iff h hret hh hsmall hatMost

/-- The end of a run over a file of two bytes. -/
def twoBytesReturned : Channel.Recorded :=
  (Transition.execOk (Channel.recordedStep Channel.twoBytes)
    (fun c a => Channel.ReadsData c.state a) (Channel.recordedInit Channel.twoBytes)
    Channel.twoBytesRun).getD (Channel.recordedInit Channel.twoBytes)

/-- That run, and a file of five bytes of which two are sent. -/
theorem convention_iff_both :
    ((∀ ret, twoBytesReturned.state.ret = some ret →
        TellsResult ret twoBytesReturned.state.accepted 2) ↔
      twoBytesReturned.state.Whole) ∧
    (TellsResult 1 (Curl.handleWithCurl true (some 5) 0 [2, -1]).state.accepted 5 ↔
      (Curl.handleWithCurl true (some 5) 0 [2, -1]).state.NoneFails) :=
  have h := convention_iff Channel.twoBytes twoBytesReturned 2 5 [2, -1] 0 1
    (Curl.handleWithCurl true (some 5) 0 [2, -1]).state
  ⟨(h.1 (Transition.reach_of_execOk Channel.twoBytesRun rfl) (.inl (by decide +kernel))
      (by decide +kernel)).1 (by decide +kernel) (by decide +kernel),
    h.2 (by decide)
      (fun _ => ⟨by decide, fun _ _ => ⟨by decide, fun h => absurd h (by decide)⟩⟩) rfl⟩

/-- A file of five bytes, and a first call that fails: the value returned is 1. -/
theorem not_tellsResult_curl :
    ¬∀ (fileLen : ℕ) (results : List ℤ) (header ret : ℤ) (s : Curl.SendLoop), fileLen < 2 ^ 53 →
      Curl.AcceptsAtMost fileLen 0 results →
      Curl.handleWithCurl true (some fileLen) header results = .returned ret s →
        TellsResult ret s.accepted fileLen := by
  intro h
  have htells := h 5 [-1] 0 1 _ (by decide) (fun _ => ⟨by decide, fun h => absurd h (by decide)⟩) rfl
  exact absurd (htells (by decide)).2 (by decide)

end OsProjects
