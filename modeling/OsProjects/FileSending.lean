import OsProjects.ConnectionDiscipline
import Mathlib.Data.List.TakeDrop

/-! # The file that `handler_get` sends

What the copy loop of `handler_get` gives to `gfs_send`, for every file and every sequence of
results that `pread` and `gfs_send` can have.

* **The transfer.** `SentFrom` says what the loop does from an offset on: it is at the end, it
  aborts behind a failed `pread` or a short `gfs_send`, or it sends one part and goes on.
* `copyLoop_sentFrom` — the loop does nothing else.
* `copyRun_ends` — every round that goes on sends a byte, so the loop ends.
* `handlerGet_sends` — what is accepted is a prefix of the file, and the result tells whether it is
  all of it. -/

namespace OsProjects.Getfile

/-- `BUFFER_SIZE` of the handler. -/
def bufferSize : ℕ := 4096

/-- The bytes of a part of the body that `gfs_send` has accepted as a whole. -/
def SocketOp.accepted : SocketOp → List Byte
  | body bytes result => if result = bytes.length then bytes else []
  | header _ _ | close => []

/-- The bytes accepted, in order. -/
def accepted (ops : List SocketOp) : List Byte := ops.flatMap SocketOp.accepted

/-- What `pread` can return in the loop with `left` bytes behind the offset: `-1`, or at most what
fits and is there. -/
def PreadResults (left : ℤ) : List Round → Prop
  | [] => True
  | r :: rs =>
      0 < left → -1 ≤ r.readLen ∧ r.readLen ≤ min (bufferSize : ℤ) left ∧
        (0 < r.readLen → r.writeLen = r.readLen → PreadResults (left - r.readLen) rs)

/-- The loop on so many results only: none while it is still in it. -/
def copyRun (file : List Byte) (fileLen bytesTransferred : ℤ) :
    List Round → Option (List SocketOp × ℤ)
  | [] => if bytesTransferred < fileLen then none else some ([], bytesTransferred)
  | r :: rs =>
      if bytesTransferred < fileLen ∧ 0 < r.readLen ∧ r.writeLen = r.readLen then
        (copyRun file fileLen (bytesTransferred + r.writeLen) rs).map fun more =>
          (.body ((file.drop bytesTransferred.toNat).take r.readLen.toNat) r.writeLen :: more.1,
            more.2)
      else some (copyLoop file fileLen bytesTransferred (r :: rs))

/-- What a transfer of the file does: at every step a prefix of it is accepted, and it returns the
length of the file, or `-1` behind one `gfs_abort` at the end. -/
structure Sends (file : List Byte) (ops : List SocketOp) (ret : ℤ) : Prop where
  prefixes : ∀ before, before <+: ops → accepted before <+: file
  returns_iff : ret = file.length ↔ accepted ops = file
  whole : accepted ops = file → ∀ op ∈ ops, op.isBody
  failed : accepted ops ≠ file → ret = -1 ∧
    ∃ bodies : List SocketOp, (∀ op ∈ bodies, op.isBody) ∧ ops = bodies ++ [.close]

/-! ### The bytes accepted -/

theorem accepted_cons (op : SocketOp) (ops : List SocketOp) :
    accepted (op :: ops) = op.accepted ++ accepted ops := List.flatMap_cons

theorem accepted_mono {before ops : List SocketOp} (h : before <+: ops) :
    accepted before <+: accepted ops := by
  obtain ⟨behind, rfl⟩ := h
  rw [accepted, accepted, List.flatMap_append]
  exact List.prefix_append _ _

theorem length_part {file : List Byte} {n k : ℕ} (h : n + k ≤ file.length) :
    ((file.drop n).take k).length = k := by
  rw [List.length_take, List.length_drop]
  omega

theorem drop_eq_part (file : List Byte) (n k : ℕ) :
    file.drop n = (file.drop n).take k ++ file.drop (n + k) := by
  rw [← List.drop_drop, List.take_append_drop]

/-! ### The transfer -/

/-- The operations of the copy loop from offset `n` on, and what it returns. -/
inductive SentFrom (file : List Byte) : ℕ → List SocketOp → ℤ → Prop
  | finished : SentFrom file file.length [] file.length
  | readError {n : ℕ} (left : n < file.length) : SentFrom file n [.close] (-1)
  | writeError {n k : ℕ} {result : ℤ} (left : n < file.length) (inFile : n + k ≤ file.length)
      (short : result ≠ k) : SentFrom file n [.body ((file.drop n).take k) result, .close] (-1)
  | part {n k : ℕ} {ops : List SocketOp} {ret : ℤ} (sent : 0 < k) (inFile : n + k ≤ file.length)
      (more : SentFrom file (n + k) ops ret) :
      SentFrom file n (.body ((file.drop n).take k) k :: ops) ret

section transfer
variable {file : List Byte} {n : ℕ} {ops : List SocketOp} {ret : ℤ}

theorem accepted_part {k : ℕ} (h : n + k ≤ file.length) (ops : List SocketOp) :
    accepted (.body ((file.drop n).take k) k :: ops) = (file.drop n).take k ++ accepted ops := by
  rw [accepted_cons, SocketOp.accepted, if_pos (by rw [length_part h])]

theorem accepted_short {k : ℕ} {result : ℤ} (h : n + k ≤ file.length) (hshort : result ≠ k) :
    accepted [.body ((file.drop n).take k) result, .close] = [] := by
  rw [accepted_cons, SocketOp.accepted, if_neg (by rwa [length_part h])]
  rfl

theorem drop_ne_nil (h : n < file.length) : [] ≠ file.drop n := by
  intro hnil
  have := List.drop_eq_nil_iff.mp hnil.symm
  omega

/-- What is accepted is a prefix of the rest of the file. -/
theorem SentFrom.accepted_le (h : SentFrom file n ops ret) : accepted ops <+: file.drop n := by
  induction h with
  | finished => exact List.nil_prefix
  | readError left => exact List.nil_prefix
  | writeError left inFile short =>
      rw [accepted_short inFile short]
      exact List.nil_prefix
  | @part n k ops ret sent inFile more ih =>
      rw [accepted_part inFile, drop_eq_part file n k, List.take_left' (length_part inFile)]
      exact (List.prefix_append_right_inj _).mpr ih

/-- All of it is accepted, and its length returned, or `gfs_abort` comes last. -/
theorem SentFrom.result (h : SentFrom file n ops ret) :
    (accepted ops = file.drop n ∧ ret = file.length ∧ ∀ op ∈ ops, op.isBody) ∨
    (accepted ops ≠ file.drop n ∧ ret = -1 ∧
      ∃ bodies : List SocketOp, (∀ op ∈ bodies, op.isBody) ∧ ops = bodies ++ [.close]) := by
  induction h with
  | finished => exact .inl ⟨(List.drop_length).symm, rfl, by simp⟩
  | readError left => exact .inr ⟨drop_ne_nil left, rfl, [], by simp, rfl⟩
  | writeError left inFile short =>
      rw [accepted_short inFile short]
      exact .inr ⟨drop_ne_nil left, rfl, [_], by simp [SocketOp.isBody], rfl⟩
  | @part n k ops ret sent inFile more ih =>
      rw [accepted_part inFile, drop_eq_part file n k, List.take_left' (length_part inFile)]
      obtain ⟨hall, hret, hops⟩ | ⟨hshort, hret, bodies, hbodies, hops⟩ := ih
      · refine .inl ⟨by rw [hall], hret, fun op hop => ?_⟩
        obtain rfl | hop := List.mem_cons.mp hop
        · rfl
        · exact hops op hop
      · refine .inr ⟨fun hall => hshort (List.append_cancel_left hall), hret, _ :: bodies,
          fun op hop => ?_, by rw [hops]; rfl⟩
        obtain rfl | hop := List.mem_cons.mp hop
        · rfl
        · exact hbodies op hop

theorem SentFrom.sends (h : SentFrom file 0 ops ret) : Sends file ops ret := by
  have hpre := h.accepted_le
  have hres := h.result
  rw [List.drop_zero] at hpre hres
  refine ⟨fun before hbefore => (accepted_mono hbefore).trans hpre, ?_, fun hall => ?_,
    fun hne => ?_⟩
  · obtain ⟨hall, hret, _⟩ | ⟨hne, hret, _⟩ := hres
    · exact iff_of_true hret hall
    · exact iff_of_false (by omega) hne
  · obtain ⟨_, _, hops⟩ | ⟨hne, _⟩ := hres
    · exact hops
    · exact absurd hall hne
  · obtain ⟨hall, _⟩ | ⟨_, hret, hbodies⟩ := hres
    · exact absurd hall hne
    · exact ⟨hret, hbodies⟩

end transfer

/-! ### The loop -/

section loop
variable {file : List Byte} {n : ℕ} {rounds : List Round}

/-- A round of the loop that sends everything it has read. -/
theorem copyLoop_round (file : List Byte) {fileLen : ℤ} {r : Round} {k : ℕ}
    (hlt : (n : ℤ) < fileLen) (hk : 0 < k) (hr : r.readLen = k) (hw : r.writeLen = k) :
    copyLoop file fileLen n (r :: rounds) =
      (.body ((file.drop n).take k) k :: (copyLoop file fileLen ((n + k : ℕ) : ℤ) rounds).1,
        (copyLoop file fileLen ((n + k : ℕ) : ℤ) rounds).2) := by
  rw [copyLoop, if_pos hlt, if_neg (by omega)]
  dsimp only
  rw [if_neg (by omega), hw, hr, Int.toNat_natCast, Int.toNat_natCast, Nat.cast_add]

theorem copyLoop_short (file : List Byte) {fileLen : ℤ} {r : Round} {k : ℕ}
    (hlt : (n : ℤ) < fileLen) (hk : 0 < k) (hr : r.readLen = k) (hw : r.writeLen ≠ k) :
    copyLoop file fileLen n (r :: rounds) =
      ([.body ((file.drop n).take k) r.writeLen, .close], -1) := by
  rw [copyLoop, if_pos hlt, if_neg (by omega)]
  dsimp only
  rw [if_pos (by omega), hr, Int.toNat_natCast, Int.toNat_natCast]

/-- The copy loop, on results that `pread` can have. -/
theorem copyLoop_sentFrom (hn : n ≤ file.length)
    (h : PreadResults ((file.length : ℤ) - n) rounds) :
    SentFrom file n (copyLoop file file.length n rounds).1
      (copyLoop file file.length n rounds).2 := by
  induction rounds generalizing n with
  | nil =>
      by_cases hlt : (n : ℤ) < file.length
      · rw [copyLoop, if_pos hlt]
        exact .readError (by omega)
      · obtain rfl : n = file.length := by omega
        rw [copyLoop, if_neg hlt]
        exact .finished
  | cons r rs ih =>
      by_cases hlt : (n : ℤ) < file.length
      · obtain ⟨-, hle, hrest⟩ := h (by omega)
        have hleft := (le_min_iff.mp hle).2
        by_cases hr : r.readLen ≤ 0
        · rw [copyLoop, if_pos hlt, if_pos hr]
          exact .readError (by omega)
        · obtain ⟨k, hk⟩ := Int.eq_ofNat_of_zero_le (le_of_not_ge hr)
          by_cases hw : r.writeLen = k
          · rw [copyLoop_round file hlt (by omega) hk hw]
            have hmore := hrest (by omega) (hw.trans hk.symm)
            rw [hk, sub_sub, ← Nat.cast_add] at hmore
            exact .part (by omega) (by omega) (ih (by omega) hmore)
          · rw [copyLoop_short file hlt (by omega) hk hw]
            exact .writeError (by omega) (by omega) hw
      · obtain rfl : n = file.length := by omega
        rw [copyLoop, if_neg hlt]
        exact .finished

/-- While the loop goes on, every round sends at least one byte. -/
theorem copyRun_ends {fileLen : ℤ} {m : ℤ} (h : fileLen ≤ m + rounds.length) :
    copyRun file fileLen m rounds = some (copyLoop file fileLen m rounds) := by
  induction rounds generalizing m with
  | nil =>
      have hle : ¬m < fileLen := by
        simp only [List.length_nil] at h
        omega
      rw [copyRun, copyLoop, if_neg hle, if_neg hle]
  | cons r rs ih =>
      rw [List.length_cons] at h
      rw [copyRun]
      by_cases hgo : m < fileLen ∧ 0 < r.readLen ∧ r.writeLen = r.readLen
      · obtain ⟨hlt, hr, hw⟩ := hgo
        rw [if_pos ⟨hlt, hr, hw⟩, ih (by push_cast at h; omega), copyLoop, if_pos hlt,
          if_neg (by omega)]
        dsimp only
        rw [if_neg (by omega)]
        rfl
      · rw [if_neg hgo]

end loop

/-- **The file is sent, or a failure is reported.** On a key of the content index and for all
results that `pread` and `gfs_send` can have, the parts accepted are a prefix of the file at every
step; `handler_get` returns the length of the file exactly if they are all of it, and otherwise
`-1`, with one `gfs_abort` as its last operation.  It takes at most as many rounds as the file has
bytes. -/
theorem handlerGet_sends (C : Content) (res : Results) (path : Option (List Byte)) (fildes : ℤ)
    (hkey : C.contentGet path = some fildes) (hfildes : 0 ≤ fildes)
    (hlen : res.lseek = (C.contents fildes).length)
    (hread : PreadResults (C.contents fildes).length res.rounds) :
    ∃ ops ret,
      handlerGet C res path =
        some ((sendheader res gfOk (sizeT res.lseek)).1 ++ ops, ret) ∧
      Sends (C.contents fildes) ops ret ∧
      ((C.contents fildes).length ≤ res.rounds.length →
        copyRun (C.contents fildes) res.lseek 0 res.rounds = some (ops, ret)) := by
  have hsent := copyLoop_sentFrom (n := 0) (Nat.zero_le _) (by rwa [Nat.cast_zero, sub_zero])
  refine ⟨_, _, ?_, hsent.sends, fun hmany => ?_⟩
  · rw [handlerGet, hkey, Option.map_some, if_neg (by omega), hlen]
    rfl
  · rw [hlen]
    exact copyRun_ends (by omega)

theorem handlerGet_sends_a : ∃ ops ret,
    handlerGet contentA (requestA [⟨1, 1⟩, ⟨-1, 0⟩]).results (some (str "/a")) =
      some ((sendheader (requestA [⟨1, 1⟩, ⟨-1, 0⟩]).results gfOk 2).1 ++ ops, ret) ∧
    Sends [97, 98] ops ret ∧
    (2 ≤ 2 → copyRun [97, 98] 2 0 [⟨1, 1⟩, ⟨-1, 0⟩] = some (ops, ret)) :=
  handlerGet_sends contentA (requestA [⟨1, 1⟩, ⟨-1, 0⟩]).results (some (str "/a")) 3 rfl
    (by decide) rfl (by
      refine fun _ => ⟨by decide, by decide, fun _ _ _ => ⟨by decide, by decide, fun h => ?_⟩⟩
      exact absurd h (by decide))

end OsProjects.Getfile
