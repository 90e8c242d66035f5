import OsProjects.GetfileClient

/-! # Runs of the GETFILE client

Once a header with a length is read, the loop of `gfc_perform` passes whole pieces to `writefunc`
and stops at the first piece boundary at which as many bytes are counted as announced.

* `headerIteration_parse` — the iteration that reads the header, by what is parsed.
* `performFrom_writes`, `perform_calls` — the calls of `writefunc` are those on the pieces read.
* `perform_ends` — what a run behind a header with a length returns and leaves: it ends where the
  body does (`bodyEnd`). -/

namespace OsProjects.Getfile

def Callback.isHeader : Callback → Bool
  | header _ _ => true
  | write _ _ _ => false

/-- The sizes given to `writefunc`, added up. -/
def writtenSize (calls : List Callback) : ℕ :=
  (calls.map fun
    | .write _ _ size => size
    | .header _ _ => 0).sum

/-- The call of `writefunc` on what is read behind the header. -/
def Recv.call (r : Recv) : Callback := .write r.received 0 r.bytesRead

/-- The number of body bytes, `d` of them already there, at the first piece boundary at which it
is `N` (modulo `2 ^ 64`), or all of them if there is none. -/
def bodyEnd (N : ℕ) : ℕ → List (List Byte) → ℕ
  | d, [] => d
  | d, p :: ps => if d % 2 ^ 64 = N then d else bodyEnd N (d + p.length) ps

/-- The state behind the header, with the first call of `writefunc`. -/
def afterHeader (gfr : Request) (p n : List Byte) : Client :=
  Client.write
    { start gfr with gfr := (gfr.setStatus (str "OK")).announce n, headerComplete := true }
    p (n.length + 15) (filecontentlength p n)

/-! ### One iteration -/

section iteration
variable {heap p n : List Byte} {s : Client} {r : Recv}

theorem iteration_zero (h : r.bytesRead = 0) (heap : List Byte) (s : Client) :
    iteration heap s r = some (.returned s.closed s) := by
  unfold iteration
  exact if_pos h

theorem iteration_body (h : r.bytesRead ≠ 0) (hc : s.headerComplete = true) (heap : List Byte) :
    iteration heap s r = some (s.write r.received 0 r.bytesRead).ended := by
  unfold iteration
  rw [if_neg h, if_pos hc]

theorem bytesRead_ne_zero (hp : p ≠ []) : (Recv.data p).bytesRead ≠ 0 :=
  fun h => hp (List.length_eq_zero_iff.mp h)

theorem iteration_first (hp : p ≠ []) (heap : List Byte) (gfr : Request) :
    iteration heap (start gfr) (.data p) = headerIteration heap p (start gfr) := by
  unfold iteration
  rw [if_neg (bytesRead_ne_zero hp),
    if_neg (show ¬(start gfr).headerComplete = true from Bool.false_ne_true)]

theorem ended_cases (s : Client) : s.ended = .returned 0 s ∨ s.ended = .next s := by
  unfold Client.ended
  split
  · exact .inl rfl
  · exact .inr rfl

theorem header_eq (gfr : Request) (text : List Byte) :
    ∃ calls, (∀ call ∈ calls, call.isHeader = true) ∧
      (start gfr).header text = ⟨gfr, false, 0, calls⟩ := by
  unfold Client.header
  split
  · exact ⟨[.header text text.length], List.forall_mem_singleton.mpr rfl, rfl⟩
  · exact ⟨[], List.forall_mem_nil _, rfl⟩

/-- The iteration that reads the header: `writefunc` is called only with a length. -/
theorem headerIteration_parse (heap p : List Byte) (gfr : Request) :
    ∃ calls, (∀ call ∈ calls, call.isHeader = true) ∧
      headerIteration heap p (start gfr) =
        match parse heap p with
        | .null => none
        | .short | .refused => some (.returned (-1) ⟨gfr.invalid, false, 0, calls⟩)
        | .fileNotFound =>
            some (.returned 0 ⟨gfr.setStatus (str "FILE_NOT_FOUND"), false, 0, calls⟩)
        | .error => some (.returned 0 ⟨gfr.setStatus (str "ERROR"), false, 0, calls⟩)
        | .ok n => some (afterHeader gfr p n).ended := by
  unfold headerIteration
  cases parse heap p with
  | null | refused | ok n => exact ⟨[], List.forall_mem_nil _, rfl⟩
  | short =>
      obtain ⟨calls, hcalls, heq⟩ := header_eq gfr.invalid (str "INVALID")
      exact ⟨calls, hcalls, congrArg (fun s => some (IterationEnd.returned (-1) s)) heq⟩
  | fileNotFound =>
      obtain ⟨calls, hcalls, heq⟩ := header_eq (gfr.setStatus (str "FILE_NOT_FOUND"))
        (str "GETFILE FILE_NOT_FOUND")
      exact ⟨calls, hcalls, congrArg (fun s => some (IterationEnd.returned 0 s)) heq⟩
  | error =>
      obtain ⟨calls, hcalls, heq⟩ := header_eq (gfr.setStatus (str "ERROR")) (str "GETFILE ERROR")
      exact ⟨calls, hcalls, congrArg (fun s => some (IterationEnd.returned 0 s)) heq⟩

end iteration

/-! ### The calls -/

section calls
variable {heap p n : List Byte} {gfr : Request} {s t : Client} {rs : List Recv} {ret : ℤ}

theorem writtenSize_append (a b : List Callback) :
    writtenSize (a ++ b) = writtenSize a + writtenSize b := by
  unfold writtenSize
  rw [List.map_append, List.sum_append]

theorem writtenSize_write (p : List Byte) (offset size : ℕ) :
    writtenSize [.write p offset size] = size :=
  Nat.add_zero size

theorem writtenSize_pieces (ps : List (List Byte)) :
    writtenSize ((ps.map Recv.data).map Recv.call) = ps.flatten.length := by
  induction ps with
  | nil => rfl
  | cons p ps ih =>
      rw [List.flatten_cons, List.length_append, ← ih]
      rfl

/-- Once the header is complete the calls are those of `writefunc` on what is read. -/
theorem performFrom_writes (hc : s.headerComplete = true)
    (h : performFrom heap s rs = some (ret, t)) :
    ∃ read, read <+: rs ∧ t.calls = s.calls ++ read.map Recv.call := by
  induction rs generalizing s with
  | nil =>
      obtain ⟨-, rfl⟩ := Prod.mk.inj (Option.some.inj h)
      exact ⟨[], List.nil_prefix, by simp⟩
  | cons r rs ih =>
      rw [performFrom] at h
      by_cases hzero : r.bytesRead = 0
      · rw [iteration_zero hzero] at h
        obtain ⟨-, rfl⟩ := Prod.mk.inj (Option.some.inj h)
        exact ⟨[], List.nil_prefix, by simp⟩
      · rw [iteration_body hzero hc] at h
        obtain hret | hnext := ended_cases (s.write r.received 0 r.bytesRead)
        · rw [hret] at h
          obtain ⟨-, rfl⟩ := Prod.mk.inj (Option.some.inj h)
          exact ⟨[r], List.prefix_append [r] rs, rfl⟩
        · rw [hnext] at h
          have hc' : (s.write r.received 0 r.bytesRead).headerComplete = true := hc
          obtain ⟨read, hread, hcalls⟩ := ih hc' h
          refine ⟨r :: read, List.cons_prefix_cons.mpr ⟨rfl, hread⟩, ?_⟩
          rw [hcalls, List.map_cons, ← List.singleton_append, ← List.append_assoc]
          rfl

/-- The first piece announces a length: the run returns or goes on behind it. -/
theorem perform_ok (hp : p ≠ []) (h : parse heap p = .ok n) (gfr : Request) (rs : List Recv) :
    perform heap gfr (.data p :: rs) =
      if (afterHeader gfr p n).bytesTotalOfFile = (afterHeader gfr p n).gfr.filelength then
        some (0, afterHeader gfr p n)
      else performFrom heap (afterHeader gfr p n) rs := by
  obtain ⟨_, _, hiter⟩ := headerIteration_parse heap p gfr
  simp only [h] at hiter
  rw [perform, performFrom, iteration_first hp, hiter, Client.ended]
  by_cases heq : (afterHeader gfr p n).bytesTotalOfFile = (afterHeader gfr p n).gfr.filelength
  · rw [if_pos heq, if_pos heq]
  · rw [if_neg heq, if_neg heq]

/-- The calls behind a header with a length. -/
theorem perform_calls (hp : p ≠ []) (h : parse heap p = .ok n)
    (hrun : perform heap gfr (.data p :: rs) = some (ret, t)) :
    ∃ read, read <+: rs ∧
      t.calls = .write p (n.length + 15) (filecontentlength p n) :: read.map Recv.call := by
  rw [perform_ok hp h] at hrun
  split at hrun
  · obtain ⟨-, rfl⟩ := Prod.mk.inj (Option.some.inj hrun)
    exact ⟨[], List.nil_prefix, rfl⟩
  · exact performFrom_writes rfl hrun

/-- The same for pieces: of those behind the first one, some are read. -/
theorem perform_pieces (hp : p ≠ []) (h : parse heap p = .ok n) {ps : List (List Byte)}
    (hrun : perform heap gfr ((p :: ps).map .data) = some (ret, t)) :
    ∃ k, t.calls = .write p (n.length + 15) (filecontentlength p n) ::
      ((ps.take k).map .data).map Recv.call := by
  obtain ⟨read, hread, hcalls⟩ := perform_calls hp h hrun
  refine ⟨read.length, ?_⟩
  rw [hcalls, List.map_take, ← List.prefix_iff_eq_take.mp hread]

theorem pieces_inPiece (ps : List (List Byte)) :
    ∀ call ∈ (ps.map Recv.data).map Recv.call, call.InPiece := by
  intro call hcall
  obtain ⟨r, hr, rfl⟩ := List.mem_map.mp hcall
  obtain ⟨q, _, rfl⟩ := List.mem_map.mp hr
  exact (Nat.zero_add q.length).le

/-- Behind a whole header the first call gets the rest of the piece. -/
theorem filecontentlength_of_le (h : n.length + 15 ≤ p.length) :
    filecontentlength p n = (p.drop (n.length + 15)).length := by
  rw [filecontentlength, subSize_of_le h, List.length_drop]

theorem first_content (h : n.length + 15 ≤ p.length) :
    (Callback.write p (n.length + 15) (filecontentlength p n)).content =
      some (p.drop (n.length + 15)) := by
  rw [Callback.content, filecontentlength_of_le h, List.take_length]

theorem first_inPiece_iff (p n : List Byte) :
    (Callback.write p (n.length + 15) (filecontentlength p n)).InPiece ↔
      n.length + 15 ≤ p.length := by
  unfold Callback.InPiece
  constructor
  · intro h
    omega
  · intro h
    rw [filecontentlength, subSize_of_le h]
    omega

/-- All calls lie in their pieces exactly if the header is whole. -/
theorem perform_inPiece_iff (hp : p ≠ []) (h : parse heap p = .ok n) {ps : List (List Byte)}
    (hrun : perform heap gfr ((p :: ps).map .data) = some (ret, t)) :
    (∀ call ∈ t.calls, call.InPiece) ↔ n.length + 15 ≤ p.length := by
  obtain ⟨k, hcalls⟩ := perform_pieces hp h hrun
  rw [hcalls, List.forall_mem_cons, first_inPiece_iff]
  exact and_iff_left (pieces_inPiece _)

/-- A missing token ends the run without a result. -/
theorem perform_null (hp : p ≠ []) (h : parse heap p = .null) (gfr : Request) (rs : List Recv) :
    perform heap gfr (.data p :: rs) = none := by
  obtain ⟨_, _, hiter⟩ := headerIteration_parse heap p gfr
  simp only [h] at hiter
  rw [perform, performFrom, iteration_first hp, hiter]

/-- A piece that ends the run has no others behind it. -/
theorem perform_returned (hp : p ≠ [])
    (h : headerIteration heap p (start gfr) = some (.returned ret s)) (rs : List Recv) :
    perform heap gfr (.data p :: rs) = some (ret, s) := by
  rw [perform, performFrom, iteration_first hp, h]

end calls

/-! ### The end of a run -/

/-- What a run returns and leaves behind an `OK` with length `N`, when `e` bytes are written. -/
structure Ends (N e : ℕ) (ret : ℤ) (t : Client) : Prop where
  ret : ret = if e % 2 ^ 64 < N then -1 else 0
  status : t.gfr.status = .ok
  filelength : t.gfr.filelength = N
  bytesOfFileReceived : t.gfr.bytesOfFileReceived = e % 2 ^ 64
  written : writtenSize t.calls = e

/-- A download that is not over: `d` bytes are written and counted. -/
structure Loading (N d : ℕ) (s : Client) : Prop where
  headerComplete : s.headerComplete = true
  status : s.gfr.status = .ok
  filelength : s.gfr.filelength = N
  bytesTotalOfFile : s.bytesTotalOfFile = d % 2 ^ 64
  bytesOfFileReceived : s.gfr.bytesOfFileReceived = d % 2 ^ 64
  written : writtenSize s.calls = d

section ends
variable {heap p n : List Byte} {s : Client} {N d : ℕ}

theorem bodyEnd_of_eq (ps : List (List Byte)) (h : d % 2 ^ 64 = N) : bodyEnd N d ps = d := by
  cases ps with
  | nil => rfl
  | cons p ps =>
      unfold bodyEnd
      rw [if_pos h]

theorem Loading.ends_met (h : Loading N d s) (hmet : d % 2 ^ 64 = N) : Ends N d 0 s where
  ret := by rw [hmet, if_neg (lt_irrefl N)]
  status := h.status
  filelength := h.filelength
  bytesOfFileReceived := h.bytesOfFileReceived
  written := h.written

theorem Loading.ends_closed (h : Loading N d s) : Ends N d s.closed s where
  ret := by rw [Client.closed, h.bytesTotalOfFile, h.filelength]
  status := h.status
  filelength := h.filelength
  bytesOfFileReceived := h.bytesOfFileReceived
  written := h.written

theorem Loading.write (h : Loading N d s) (p : List Byte) :
    Loading N (d + p.length) (s.write p 0 p.length) := by
  have htotal : (s.bytesTotalOfFile + p.length) % 2 ^ 64 = (d + p.length) % 2 ^ 64 := by
    rw [h.bytesTotalOfFile, Nat.mod_add_mod]
  refine ⟨h.headerComplete, h.status, h.filelength, htotal, htotal, ?_⟩
  rw [Client.write, writtenSize_append, writtenSize_write, h.written]

theorem performFrom_ends (h : Loading N d s) (hne : d % 2 ^ 64 ≠ N) {ps : List (List Byte)}
    (hps : ∀ p ∈ ps, p ≠ []) :
    ∃ ret t, performFrom heap s (ps.map .data) = some (ret, t) ∧ Ends N (bodyEnd N d ps) ret t := by
  induction ps generalizing s d with
  | nil => exact ⟨_, s, rfl, h.ends_closed⟩
  | cons p ps ih =>
      obtain ⟨hp, hps'⟩ := List.forall_mem_cons.mp hps
      have hnext := h.write p
      have hend : bodyEnd N d (p :: ps) = bodyEnd N (d + p.length) ps := if_neg hne
      have hiter : iteration heap s (.data p) = some (s.write p 0 p.length).ended :=
        iteration_body (bytesRead_ne_zero hp) h.headerComplete heap
      rw [List.map_cons, performFrom, hiter, hend, Client.ended, hnext.bytesTotalOfFile,
        hnext.filelength]
      by_cases hmet : (d + p.length) % 2 ^ 64 = N
      · rw [if_pos hmet, bodyEnd_of_eq ps hmet]
        exact ⟨0, _, rfl, hnext.ends_met hmet⟩
      · rw [if_neg hmet]
        exact ih hnext hmet hps'

/-- With all of the announced bytes the client does not read on. -/
theorem performFrom_later (h : Loading N d s) (hne : d % 2 ^ 64 ≠ N) {ps : List (List Byte)}
    (hps : ∀ p ∈ ps, p ≠ []) {ret : ℤ} {t : Client}
    (hrun : performFrom heap s (ps.map .data) = some (ret, t))
    (hall : t.gfr.bytesOfFileReceived = t.gfr.filelength) (later : List Recv) :
    performFrom heap s (ps.map .data ++ later) = some (ret, t) := by
  induction ps generalizing s d with
  | nil =>
      obtain ⟨-, rfl⟩ := Prod.mk.inj (Option.some.inj hrun)
      rw [h.bytesOfFileReceived, h.filelength] at hall
      exact absurd hall hne
  | cons p ps ih =>
      obtain ⟨hp, hps'⟩ := List.forall_mem_cons.mp hps
      have hnext := h.write p
      have hiter : iteration heap s (.data p) = some (s.write p 0 p.length).ended :=
        iteration_body (bytesRead_ne_zero hp) h.headerComplete heap
      rw [List.map_cons, performFrom, hiter, Client.ended, hnext.bytesTotalOfFile,
        hnext.filelength] at hrun
      rw [List.map_cons, List.cons_append, performFrom, hiter, Client.ended,
        hnext.bytesTotalOfFile, hnext.filelength]
      by_cases hmet : (d + p.length) % 2 ^ 64 = N
      · rw [if_pos hmet] at hrun ⊢
        exact hrun
      · rw [if_neg hmet] at hrun ⊢
        exact ih hnext hmet hps' hrun

theorem loading_afterHeader (gfr : Request) (p n : List Byte) :
    Loading (sizeT (atol n)) (filecontentlength p n) (afterHeader gfr p n) where
  headerComplete := rfl
  status := rfl
  filelength := rfl
  bytesTotalOfFile := congrArg (· % 2 ^ 64) (Nat.zero_add _)
  bytesOfFileReceived := congrArg (· % 2 ^ 64) (Nat.zero_add _)
  written := writtenSize_write p _ _

/-- **A run whose first piece has a length** ends where the body does. -/
theorem perform_ends (hp : p ≠ []) (h : parse heap p = .ok n) (gfr : Request)
    {ps : List (List Byte)} (hps : ∀ p ∈ ps, p ≠ []) :
    ∃ ret t, perform heap gfr ((p :: ps).map .data) = some (ret, t) ∧
      Ends (sizeT (atol n)) (bodyEnd (sizeT (atol n)) (filecontentlength p n) ps) ret t := by
  have hload := loading_afterHeader gfr p n
  rw [List.map_cons, perform_ok hp h, hload.bytesTotalOfFile, hload.filelength]
  by_cases hmet : filecontentlength p n % 2 ^ 64 = sizeT (atol n)
  · rw [if_pos hmet, bodyEnd_of_eq ps hmet]
    exact ⟨0, _, rfl, hload.ends_met hmet⟩
  · rw [if_neg hmet]
    exact performFrom_ends hload hmet hps

/-- The same, with pieces that the client does not read. -/
theorem perform_later (hp : p ≠ []) (h : parse heap p = .ok n) {gfr : Request}
    {ps : List (List Byte)} (hps : ∀ p ∈ ps, p ≠ []) {ret : ℤ} {t : Client}
    (hrun : perform heap gfr ((p :: ps).map .data) = some (ret, t))
    (hall : t.gfr.bytesOfFileReceived = t.gfr.filelength) (later : List Recv) :
    perform heap gfr ((p :: ps).map .data ++ later) = some (ret, t) := by
  have hload := loading_afterHeader gfr p n
  rw [List.map_cons, perform_ok hp h, hload.bytesTotalOfFile, hload.filelength] at hrun
  rw [List.map_cons, List.cons_append, perform_ok hp h, hload.bytesTotalOfFile, hload.filelength]
  by_cases hmet : filecontentlength p n % 2 ^ 64 = sizeT (atol n)
  · rw [if_pos hmet] at hrun ⊢
    exact hrun
  · rw [if_neg hmet] at hrun ⊢
    exact performFrom_later hload hmet hps hrun hall later

end ends

/-! ### Runs that give away nothing but what was received -/

section defined
variable {heap : List Byte} {gfr : Request} {rs : List Recv} {r : ℤ × Client}

theorem gfcPerform_eq_some : gfcPerform heap gfr rs = some r ↔
    perform heap gfr rs = some r ∧ ∀ call ∈ r.2.calls, call.InPiece := by
  unfold gfcPerform
  rw [Option.filter_eq_some_iff, decide_eq_true_iff]

theorem inPiece_of_isHeader {calls : List Callback} (h : ∀ call ∈ calls, call.isHeader = true) :
    ∀ call ∈ calls, call.InPiece := by
  intro call hcall
  cases call with
  | header text size => trivial
  | write piece offset size => cases h _ hcall

theorem writes_of_isHeader {s : Client} (h : ∀ call ∈ s.calls, call.isHeader = true) :
    s.writes = [] := by
  unfold Client.writes
  rw [List.filterMap_eq_nil_iff]
  intro call hcall
  cases call with
  | header text size => rfl
  | write piece offset size => cases h _ hcall

end defined

end OsProjects.Getfile
