import OsProjects.Channel

/-! # `handle_with_curl`

The handler of `proj3/handle_with_curl.c`: `write_callback` collects what libcurl downloads in one
block, and a loop passes the block to `gfs_send`.

* **Environment.** What `curl_easy_perform` and `curl_easy_getinfo` give is an argument, and so are
  the results of `gfs_send`.  `file_len` is a `double`; it is exact here, which it is below `2 ^ 53`.
* **Two counters.** The pointer given to `gfs_send` is `chunk.memory + offset` with an `int` offset,
  while the test of the loop reads the `size_t` `bytes_transferred`.
* `forwards_iff` — the block is sent as it was received exactly if no turn of the loop begins at
  `2 ^ 31` bytes or behind. -/

namespace OsProjects.Curl

open Channel (Gfstatus)

/-- `BUFFER_SIZE`. -/
def bufferSize : ℕ := 4096

/-- `memory_t`; `memory` is the block that is allocated, unless it is `NULL`. -/
structure Memory where
  memory : Option (List Byte)
  size : ℕ
deriving DecidableEq, Repr

/-- `write_callback` on `size * nmemb` bytes, with the result of `realloc`.  It writes every byte
behind the first `mem->size` bytes of the new block. -/
def writeCallback (realloc : Bool) (ptr : List Byte) (size nmemb : ℕ) (mem : Memory) :
    ℕ × Memory :=
  let realsize := size * nmemb % 2 ^ 64
  if realloc then
    (realsize,
      { memory := some ((mem.memory.getD []).take mem.size ++ ptr.take realsize ++ [0])
        size := (mem.size + realsize) % 2 ^ 64 })
  else (0, { mem with memory := none })

/-- `chunk` behind `curl_easy_perform`, which passes these payloads to the callback; libcurl's
`size` is 1.  What `malloc` has put into the first block is never read. -/
def download (payloads : List (List Byte)) : Memory :=
  payloads.foldl (fun mem ptr => (writeCallback true ptr 1 ptr.length mem).2) ⟨some [0], 0⟩

/-- One call of `gfs_send`: the distance of its pointer from `chunk.memory`, `bytes_transferred` at
this moment, the length asked for, and the result. -/
structure CurlSend where
  offset : ℤ
  bytesTransferred : ℕ
  asked : ℕ
  result : ℤ
deriving DecidableEq, Repr

/-- The variables of the loop, with the calls so far. -/
structure SendLoop where
  headers : List (Gfstatus × ℕ)
  offset : ℤ
  bytesTransferred : ℕ
  sends : List CurlSend
deriving DecidableEq, Repr

/-- The handler is still in its loop, or has returned. -/
inductive Handler where
  | sending (s : SendLoop)
  | returned (ret : ℤ) (s : SendLoop)
deriving DecidableEq, Repr

def Handler.state : Handler → SendLoop
  | sending s | returned _ s => s

/-- The length that a turn asks for. -/
def asked (fileLen bytesTransferred : ℕ) : ℕ :=
  if bufferSize ≤ fileLen - bytesTransferred then bufferSize else fileLen - bytesTransferred

namespace SendLoop

def gfsSend (fileLen : ℕ) (s : SendLoop) (writeLen : ℤ) : SendLoop :=
  { s with
    sends := s.sends ++
      [⟨s.offset, s.bytesTransferred, asked fileLen s.bytesTransferred, writeLen⟩] }

/-- `offset += write_len; bytes_transferred += write_len;` -/
def advance (s : SendLoop) (writeLen : ℤ) : SendLoop :=
  { s with
    offset := cInt (s.offset + writeLen)
    bytesTransferred := (s.bytesTransferred + sizeT writeLen) % 2 ^ 64 }

end SendLoop

/-- The loop, on the results of `gfs_send` so far. -/
def sendLoop (fileLen : ℕ) (s : SendLoop) : List ℤ → Handler
  | [] => if s.bytesTransferred < fileLen then .sending s else .returned s.bytesTransferred s
  | writeLen :: results =>
      if s.bytesTransferred < fileLen then
        if writeLen ≤ 0 then .returned 1 (s.gfsSend fileLen writeLen)
        else sendLoop fileLen ((s.gfsSend fileLen writeLen).advance writeLen) results
      else .returned s.bytesTransferred s

/-- The loop in front of its first turn. -/
def atLoop (fileLen : ℕ) : SendLoop := ⟨[(.ok, fileLen)], 0, 0, []⟩

/-- `handle_with_curl` behind `curl_easy_perform`: whether it has succeeded, what
`curl_easy_getinfo` gives, the result of `gfs_sendheader` where it is returned, and those of
`gfs_send`. -/
def handleWithCurl (performed : Bool) (sizeDownload : Option ℕ) (header : ℤ) (results : List ℤ) :
    Handler :=
  if performed then
    match sizeDownload with
    | none => .returned 1 ⟨[], 0, 0, []⟩
    | some fileLen => sendLoop fileLen (atLoop fileLen) results
  else .returned header ⟨[(.fileNotFound, 0)], 0, 0, []⟩

/-! ### The property -/

/-- The bytes of the block that a call has sent; in front of the block there are none. -/
def CurlSend.bytes (memory : List Byte) (x : CurlSend) : List Byte :=
  if 0 ≤ x.offset then (memory.drop x.offset.toNat).take x.result.toNat else []

/-- All bytes accepted, in order. -/
def SendLoop.body (memory : List Byte) (s : SendLoop) : List Byte := s.sends.flatMap (·.bytes memory)

/-- From `b` bytes on, every call accepts something, and at most what it is asked for. -/
def Accepts (fileLen : ℕ) : ℕ → List ℤ → Prop
  | _, [] => True
  | b, writeLen :: results =>
      b < fileLen → 0 < writeLen ∧ writeLen ≤ asked fileLen b ∧
        Accepts fileLen (b + writeLen.toNat) results

/-- From `b` bytes on, no turn begins at `2 ^ 31` bytes or behind. -/
def OffsetFits (fileLen : ℕ) : ℕ → List ℤ → Prop
  | _, [] => True
  | b, writeLen :: results =>
      b < fileLen → b < 2 ^ 31 ∧ OffsetFits fileLen (b + writeLen.toNat) results

/-- The body is forwarded: every call gets the block from behind what was accepted, and a length
that stays inside; the loop ends after at most as many turns as there are bytes, and when it has
ended the payloads are sent, in order and once each. -/
structure Forwards (payloads : List (List Byte)) (handler : Handler) (turns : ℕ) : Prop where
  placed : ∀ x ∈ handler.state.sends, x.offset = x.bytesTransferred ∧
    x.offset + x.asked ≤ (download payloads).size
  ends : payloads.flatten.length ≤ turns → ∃ ret s, handler = .returned ret s
  whole : ∀ ret s, handler = .returned ret s →
    s.body ((download payloads).memory.getD []) = payloads.flatten

/-! ### The download -/

theorem download_foldl (payloads : List (List Byte)) (received : List Byte)
    (h : received.length + payloads.flatten.length < 2 ^ 64) :
    payloads.foldl (fun mem ptr => (writeCallback true ptr 1 ptr.length mem).2)
        ⟨some (received ++ [0]), received.length⟩ =
      ⟨some (received ++ payloads.flatten ++ [0]),
        received.length + payloads.flatten.length⟩ := by
  induction payloads generalizing received with
  | nil => rw [List.foldl_nil, List.flatten_nil, List.append_nil, List.length_nil, Nat.add_zero]
  | cons ptr payloads ih =>
      rw [List.flatten_cons, List.length_append] at h
      have hreal : 1 * ptr.length % 2 ^ 64 = ptr.length := by
        rw [Nat.one_mul]
        exact Nat.mod_eq_of_lt (by omega)
      have hsize : (received.length + ptr.length) % 2 ^ 64 = (received ++ ptr).length := by
        rw [List.length_append]
        exact Nat.mod_eq_of_lt (by omega)
      have hcall : (writeCallback true ptr 1 ptr.length
          ⟨some (received ++ [0]), received.length⟩).2 =
          ⟨some (received ++ ptr ++ [0]), (received ++ ptr).length⟩ := by
        unfold writeCallback
        dsimp only
        rw [if_pos rfl, hreal, hsize, Option.getD_some, List.take_left, List.take_length]
      rw [List.foldl_cons, hcall, ih _ (by rw [List.length_append]; omega)]
      simp only [List.flatten_cons, List.append_assoc, List.length_append, Nat.add_assoc]

theorem download_eq (payloads : List (List Byte)) (h : payloads.flatten.length < 2 ^ 64) :
    download payloads = ⟨some (payloads.flatten ++ [0]), payloads.flatten.length⟩ := by
  have hfold := download_foldl payloads [] (by simpa using h)
  rw [List.nil_append, List.nil_append, List.length_nil, Nat.zero_add] at hfold
  exact hfold

/-! ### The loop -/

section loop
variable {fileLen : ℕ} {memory : List Byte} {s : SendLoop} {w : ℤ} {results : List ℤ}

theorem asked_le (fileLen b : ℕ) : asked fileLen b ≤ fileLen - b := by
  unfold asked
  split
  · assumption
  · exact le_refl _

theorem sends_mono (results : List ℤ) :
    s.sends <+: (sendLoop fileLen s results).state.sends := by
  induction results generalizing s with
  | nil =>
      unfold sendLoop
      split <;> exact List.prefix_rfl
  | cons w results ih =>
      unfold sendLoop
      split
      · split
        · exact List.prefix_append _ _
        · exact (List.prefix_append s.sends _).trans
            (ih (s := (s.gfsSend fileLen w).advance w))
      · exact List.prefix_rfl

/-- The counters behind a turn that has accepted something. -/
theorem turn_counters (fileLen : ℕ) (hoffset : s.offset = cInt s.bytesTransferred) (hw : 0 < w)
    (hfit : s.bytesTransferred + w < 2 ^ 64) :
    ((s.gfsSend fileLen w).advance w).bytesTransferred = s.bytesTransferred + w.toNat ∧
      ((s.gfsSend fileLen w).advance w).offset = cInt (s.bytesTransferred + w.toNat : ℕ) := by
  have hsize : sizeT w = w.toNat := sizeT_of_nonneg (by omega) (by omega)
  have hsum : ((s.bytesTransferred + w.toNat : ℕ) : ℤ) = s.bytesTransferred + w := by omega
  unfold SendLoop.gfsSend SendLoop.advance
  dsimp only
  constructor
  · rw [hsize]
    exact Nat.mod_eq_of_lt (by omega)
  · rw [hsum, hoffset]
    exact Int.bmod_add_bmod

/-- At each turn as many bytes are sent as both counters say. -/
structure Sent (memory : List Byte) (fileLen : ℕ) (s : SendLoop) : Prop where
  offset : s.offset = cInt s.bytesTransferred
  inside : s.bytesTransferred ≤ fileLen
  placed : ∀ x ∈ s.sends, x.offset = x.bytesTransferred ∧ x.offset + x.asked ≤ fileLen
  body : s.body memory = memory.take s.bytesTransferred

theorem sent_atLoop (memory : List Byte) (fileLen : ℕ) : Sent memory fileLen (atLoop fileLen) where
  offset := show (0 : ℤ) = cInt (0 : ℕ) by decide
  inside := Nat.zero_le fileLen
  placed := List.forall_mem_nil _
  body := rfl

theorem Sent.turn (hS : Sent memory fileLen s) (hlen : fileLen < 2 ^ 53)
    (hlt : s.bytesTransferred < fileLen) (hfits : s.bytesTransferred < 2 ^ 31) (hw : 0 < w)
    (hasked : w ≤ asked fileLen s.bytesTransferred) :
    Sent memory fileLen ((s.gfsSend fileLen w).advance w) := by
  have hle := asked_le fileLen s.bytesTransferred
  have hplace : s.offset = s.bytesTransferred := by
    rw [hS.offset]
    exact cInt_of_lt (by omega) (by omega)
  obtain ⟨hbytes, hoffset⟩ := turn_counters fileLen hS.offset hw (by omega)
  refine ⟨?_, ?_, ?_, ?_⟩
  · rw [hoffset, hbytes]
  · rw [hbytes]
    omega
  · intro x hx
    obtain hx | hx := List.mem_append.mp hx
    · exact hS.placed x hx
    · rw [List.mem_singleton.mp hx]
      dsimp only
      omega
  · have hcall : ((s.gfsSend fileLen w).advance w).body memory =
        s.body memory ++ (memory.drop s.bytesTransferred).take w.toNat := by
      change (s.sends ++ [_]).flatMap _ = _
      rw [List.flatMap_append, List.flatMap_singleton, CurlSend.bytes, hplace,
        if_pos (Int.natCast_nonneg _), Int.toNat_natCast]
      rfl
    rw [hcall, hS.body, hbytes, List.take_add]

/-- The loop on results that let it go on: it ends with everything sent, or every turn so far has
sent a byte. -/
theorem Sent.loop (hlen : fileLen < 2 ^ 53) (hS : Sent memory fileLen s)
    (haccepts : Accepts fileLen s.bytesTransferred results)
    (hfits : OffsetFits fileLen s.bytesTransferred results) :
    ∃ s', Sent memory fileLen s' ∧
      (sendLoop fileLen s results = .returned s'.bytesTransferred s' ∧
          s'.bytesTransferred = fileLen ∨
        sendLoop fileLen s results = .sending s' ∧ s'.bytesTransferred < fileLen ∧
          s.bytesTransferred + results.length ≤ s'.bytesTransferred) := by
  induction results generalizing s with
  | nil =>
      refine ⟨s, hS, ?_⟩
      have hinside := hS.inside
      unfold sendLoop
      split
      · next hlt => exact .inr ⟨rfl, hlt, le_refl _⟩
      · exact .inl ⟨rfl, by omega⟩
  | cons w results ih =>
      unfold sendLoop
      by_cases hlt : s.bytesTransferred < fileLen
      · obtain ⟨hw, hasked, hmore⟩ := haccepts hlt
        obtain ⟨hfit, hfits'⟩ := hfits hlt
        have hturn := hS.turn hlen hlt hfit hw hasked
        have hle := asked_le fileLen s.bytesTransferred
        obtain ⟨hbytes, -⟩ := turn_counters fileLen hS.offset hw (by omega)
        rw [if_pos hlt, if_neg (not_le.mpr hw)]
        obtain ⟨s', hS', hend⟩ := ih hturn (by rwa [hbytes]) (by rwa [hbytes])
        refine ⟨s', hS', hend.imp_right fun ⟨hsending, hlt', hcount⟩ => ⟨hsending, hlt', ?_⟩⟩
        rw [List.length_cons]
        omega
      · rw [if_neg hlt]
        have hinside := hS.inside
        exact ⟨s, hS, .inl ⟨rfl, by omega⟩⟩

/-- If every call gets the right pointer, then no turn begins at `2 ^ 31` bytes. -/
theorem offsetFits_of_placed (hlen : fileLen < 2 ^ 53)
    (hoffset : s.offset = cInt s.bytesTransferred)
    (haccepts : Accepts fileLen s.bytesTransferred results)
    (hplaced : ∀ x ∈ (sendLoop fileLen s results).state.sends, x.offset = x.bytesTransferred) :
    OffsetFits fileLen s.bytesTransferred results := by
  induction results generalizing s with
  | nil => trivial
  | cons w results ih =>
      intro hlt
      obtain ⟨hw, hasked, hmore⟩ := haccepts hlt
      have hle := asked_le fileLen s.bytesTransferred
      unfold sendLoop at hplaced
      rw [if_pos hlt, if_neg (not_le.mpr hw)] at hplaced
      obtain ⟨hbytes, hoffset'⟩ := turn_counters fileLen hoffset hw (by omega)
      constructor
      · -- the call of this turn is recorded
        have hcall : (⟨s.offset, s.bytesTransferred, asked fileLen s.bytesTransferred, w⟩ :
            CurlSend) ∈ ((s.gfsSend fileLen w).advance w).sends :=
          List.mem_append_right _ (List.mem_singleton_self _)
        have hplace := hplaced _ ((sends_mono results).subset hcall)
        have hint := cInt_lt s.bytesTransferred
        dsimp only at hplace
        omega
      · rw [← hbytes] at hoffset' hmore ⊢
        exact ih hoffset' hmore hplaced

end loop

/-- **The body is forwarded exactly if no turn of the loop begins at `2 ^ 31` bytes or behind**,
which is where the `int` offset and `bytes_transferred` part. -/
theorem forwards_iff (payloads : List (List Byte)) (results : List ℤ)
    (hlen : payloads.flatten.length < 2 ^ 53)
    (haccepts : Accepts payloads.flatten.length 0 results) :
    Forwards payloads (handleWithCurl true (some payloads.flatten.length) 0 results)
        results.length ↔
      OffsetFits payloads.flatten.length 0 results := by
  have hstart := sent_atLoop (payloads.flatten ++ [0]) payloads.flatten.length
  have hdownload := download_eq payloads (by omega)
  constructor
  · intro h
    exact offsetFits_of_placed hlen hstart.offset haccepts fun x hx => (h.placed x hx).1
  · intro hfits
    obtain ⟨s', hS', ⟨hend, hall⟩ | ⟨hsending, hlt, hcount⟩⟩ := hstart.loop hlen haccepts hfits
    · have hend : handleWithCurl true (some payloads.flatten.length) 0 results =
        .returned s'.bytesTransferred s' := hend
      rw [hend]
      refine ⟨?_, fun _ => ⟨_, s', rfl⟩, fun ret s hret => ?_⟩
      · rw [hdownload]
        exact hS'.placed
      · obtain ⟨_, rfl⟩ := Handler.returned.inj hret
        rw [hdownload, Option.getD_some, hS'.body, hall, List.take_left]
    · have hsending : handleWithCurl true (some payloads.flatten.length) 0 results =
        .sending s' := hsending
      rw [hsending]
      have hcount : 0 + results.length ≤ s'.bytesTransferred := hcount
      refine ⟨?_, fun hturns => ?_, fun ret s hret => ?_⟩
      · rw [hdownload]
        exact hS'.placed
      · omega
      · cases hret

theorem forwards_iff_threeBytes :
    Forwards [[1, 2], [3]] (handleWithCurl true (some 3) 0 [1, 2]) 2 ↔ OffsetFits 3 0 [1, 2] :=
  forwards_iff [[1, 2], [3]] [1, 2] (by decide)
    fun _ => ⟨by decide, by decide, fun _ => ⟨by decide, by decide, trivial⟩⟩

/-! ### One byte at a time -/

theorem accepts_ones (fileLen b k : ℕ) : Accepts fileLen b (List.replicate k 1) := by
  induction k generalizing b with
  | zero => trivial
  | succ k ih =>
      intro hlt
      refine ⟨by decide, ?_, ih _⟩
      unfold asked bufferSize
      split <;> omega

theorem not_offsetFits_ones {fileLen b k : ℕ} (hlen : 2 ^ 31 < fileLen) (hb : b ≤ 2 ^ 31)
    (hk : 2 ^ 31 < b + k) : ¬OffsetFits fileLen b (List.replicate k 1) := by
  induction k generalizing b with
  | zero => omega
  | succ k ih =>
      intro h
      obtain ⟨hfit, hmore⟩ := h (by omega)
      have hone : b + (1 : ℤ).toNat = b + 1 := rfl
      rw [hone] at hmore
      exact ih (by omega) (by omega) hmore

/-- A file of `2 ^ 31 + 1` bytes, sent byte by byte: the last pointer is in front of the block. -/
theorem not_forwards_large :
    ¬∀ (payloads : List (List Byte)) (results : List ℤ), payloads.flatten.length < 2 ^ 53 →
      Accepts payloads.flatten.length 0 results →
        Forwards payloads (handleWithCurl true (some payloads.flatten.length) 0 results)
          results.length := by
  intro h
  have hbig : ∀ n : ℕ, 2 ^ 31 < n → n < 2 ^ 53 → False := by
    intro n hn hlen
    have hflat : [List.replicate n (0 : Byte)].flatten.length = n := by
      rw [List.flatten_singleton, List.length_replicate]
    have hforwards := h [List.replicate n 0] (List.replicate n 1) (by rwa [hflat])
      (accepts_ones _ 0 n)
    rw [hflat] at hforwards
    have hfits : OffsetFits n 0 (List.replicate n 1) :=
      offsetFits_of_placed (s := atLoop n) hlen (sent_atLoop [] n).offset (accepts_ones n 0 n)
        fun x hx => (hforwards.placed x hx).1
    exact not_offsetFits_ones hn (Nat.zero_le _) (by omega) hfits
  exact hbig (2 ^ 31 + 1) (by omega) (by omega)

end OsProjects.Curl
