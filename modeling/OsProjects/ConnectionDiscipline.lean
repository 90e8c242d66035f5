import OsProjects.GetfileConnections

/-! # Response discipline and open connections of the GETFILE server

On the operations of `GetfileConnections.lean`: what the server does to the socket of one
connection, and which sockets are open when it comes back to `accept`.

* `copyLoop_of_complete`, `copyLoop_of_not_complete` — the copy loop of `handler_get` sends body
  parts only, or ends with a `close` and reports failure.
* `disciplined_iff` — exactly when one connection gets one header, nothing after `close` and no
  header after body bytes: unless the handler reports a failure to the loop, which then answers
  once more.
* `opened_iff` — exactly when all connection sockets are closed at the head of the loop: unless
  some transfer was complete. -/

namespace OsProjects.Getfile

open Transition

namespace SocketOp

def isHeader : SocketOp → Bool
  | header _ _ => true
  | _ => false

def isBody : SocketOp → Bool
  | body _ _ => true
  | _ => false

theorem isHeader_of_isBody {op : SocketOp} (h : op.isBody) : op.isHeader = false := by
  cases op <;> simp_all [isBody, isHeader]

theorem ne_close_of_isBody {op : SocketOp} (h : op.isBody) : op ≠ close := by
  rintro rfl
  cases h

end SocketOp

/-- The discipline of one connection: at most one header, no operation behind a `close`, and no
header behind a part of the body. -/
structure Disciplined (ops : List SocketOp) : Prop where
  oneHeader : ops.countP SocketOp.isHeader ≤ 1
  closed : ops.Pairwise fun a _ => a ≠ .close
  headerFirst : ops.Pairwise fun a b => a.isBody → b.isHeader = false

/-! ### Conditions on the results -/

/-- From `bytesTransferred` bytes on, the rounds first read and send completely as many bytes as
the file has. -/
def Completes (fileLen bytesTransferred : ℤ) (rounds : List Round) : Prop :=
  ∃ done, done <+: rounds ∧ (∀ r ∈ done, 0 < r.readLen ∧ r.writeLen = r.readLen) ∧
    fileLen ≤ bytesTransferred + (done.map Round.readLen).sum

/-- The whole file is read and sent. -/
def Results.Complete (res : Results) : Prop := Completes res.lseek 0 res.rounds

/-- If the request gets to `handler_get`, then the header of an unknown path is written, or the
file of a known one is read and sent completely. -/
def HandlerSucceeds (C : Content) (readData : List Byte) (c : Connection) : Prop :=
  ∀ path buf fildes, serveConnection readData c.pieces = some (.handler path, buf) →
    C.contentGet path = some fildes →
      if fildes < 0 then 0 ≤ c.results.write gfFileNotFound else c.results.Complete

/-- The request gets to `handler_get` with a known path, and its file is read and sent
completely. -/
def FullTransfer (C : Content) (readData : List Byte) (c : Connection) : Prop :=
  ∃ path buf fildes, serveConnection readData c.pieces = some (.handler path, buf) ∧
    C.contentGet path = some fildes ∧ 0 ≤ fildes ∧ c.results.Complete

/-! ### The copy loop -/

section copyLoop
variable {file : List Byte} {fileLen n : ℤ} {rounds : List Round}

theorem completes_of_le (h : fileLen ≤ n) : Completes fileLen n rounds :=
  ⟨[], List.nil_prefix, by simp, by simpa using h⟩

theorem completes_nil : Completes fileLen n [] ↔ fileLen ≤ n := by
  constructor
  · rintro ⟨done, hpre, _, hlen⟩
    obtain rfl := List.prefix_nil.mp hpre
    simpa using hlen
  · exact completes_of_le

theorem completes_cons {r : Round} (h : n < fileLen) :
    Completes fileLen n (r :: rounds) ↔
      0 < r.readLen ∧ r.writeLen = r.readLen ∧ Completes fileLen (n + r.writeLen) rounds := by
  constructor
  · rintro ⟨done, hpre, hdone, hlen⟩
    cases done with
    | nil =>
        simp only [List.map_nil, List.sum_nil] at hlen
        omega
    | cons r' done =>
        obtain ⟨rfl, hpre'⟩ := List.cons_prefix_cons.mp hpre
        obtain ⟨hr, hw⟩ := hdone r' (by simp)
        refine ⟨hr, hw, done, hpre', fun q hq => hdone q (by simp [hq]), ?_⟩
        rw [List.map_cons, List.sum_cons] at hlen
        omega
  · rintro ⟨hr, hw, done, hpre, hdone, hlen⟩
    refine ⟨r :: done, List.cons_prefix_cons.mpr ⟨rfl, hpre⟩, fun q hq => ?_, ?_⟩
    · rcases List.mem_cons.mp hq with rfl | hq
      · exact ⟨hr, hw⟩
      · exact hdone q hq
    · rw [List.map_cons, List.sum_cons]
      omega

/-- Rounds that complete the file: body parts, and a result that reports no failure. -/
theorem copyLoop_of_complete (file : List Byte) (hn : 0 ≤ n) (h : Completes fileLen n rounds) :
    (∀ op ∈ (copyLoop file fileLen n rounds).1, op.isBody) ∧
      0 ≤ (copyLoop file fileLen n rounds).2 := by
  induction rounds generalizing n with
  | nil =>
      have hle := completes_nil.mp h
      rw [copyLoop, if_neg (by omega)]
      exact ⟨by simp, hn⟩
  | cons r rs ih =>
      by_cases hlt : n < fileLen
      · obtain ⟨hr, hw, hrest⟩ := (completes_cons hlt).mp h
        obtain ⟨hops, hret⟩ := ih (by omega) hrest
        rw [copyLoop, if_pos hlt, if_neg (by omega), if_neg (by simpa using hw)]
        refine ⟨fun op hop => ?_, hret⟩
        rcases List.mem_cons.mp hop with rfl | hop
        · rfl
        · exact hops op hop
      · rw [copyLoop, if_neg hlt]
        exact ⟨by simp, hn⟩

/-- Rounds that do not: body parts, `gfs_abort` and `return -1`. -/
theorem copyLoop_of_not_complete (file : List Byte) (h : ¬Completes fileLen n rounds) :
    ∃ bodies : List SocketOp, (∀ op ∈ bodies, op.isBody) ∧
      copyLoop file fileLen n rounds = (bodies ++ [.close], -1) := by
  have hlt : n < fileLen := lt_of_not_ge fun hle => h (completes_of_le hle)
  induction rounds generalizing n with
  | nil =>
      rw [copyLoop, if_pos hlt]
      exact ⟨[], by simp, rfl⟩
  | cons r rs ih =>
      rw [copyLoop, if_pos hlt]
      by_cases hr : r.readLen ≤ 0
      · rw [if_pos hr]
        exact ⟨[], by simp, rfl⟩
      · rw [if_neg hr]
        by_cases hw : r.writeLen = r.readLen
        · have hrest : ¬Completes fileLen (n + r.writeLen) rs :=
            fun hc => h ((completes_cons hlt).mpr ⟨by omega, hw, hc⟩)
          obtain ⟨bodies, hbodies, heq⟩ :=
            ih hrest (lt_of_not_ge fun hle => hrest (completes_of_le hle))
          dsimp only
          rw [if_neg (by simpa using hw), heq]
          refine ⟨_ :: bodies, fun op hop => ?_, rfl⟩
          rcases List.mem_cons.mp hop with rfl | hop
          · rfl
          · exact hbodies op hop
        · dsimp only
          rw [if_pos hw]
          exact ⟨[_], by simp [SocketOp.isBody], rfl⟩

end copyLoop

/-! ### One connection -/

section connection
variable {C : Content} {readData : List Byte} {c : Connection}

theorem same_fildes {path path' : Option (List Byte)} {buf buf' : List Byte} {fildes fildes' : ℤ}
    (hs : serveConnection readData c.pieces = some (.handler path, buf))
    (hg : C.contentGet path = some fildes)
    (hs' : serveConnection readData c.pieces = some (.handler path', buf'))
    (hg' : C.contentGet path' = some fildes') : fildes = fildes' := by
  have hd := congrArg Prod.fst (Option.some.inj (hs.symm.trans hs'))
  obtain rfl := Decision.handler.inj hd
  exact Option.some.inj (hg.symm.trans hg')

theorem handlerSucceeds_of {path : Option (List Byte)} {buf : List Byte} {fildes : ℤ}
    (hs : serveConnection readData c.pieces = some (.handler path, buf))
    (hg : C.contentGet path = some fildes) :
    HandlerSucceeds C readData c ↔
      if fildes < 0 then 0 ≤ c.results.write gfFileNotFound else c.results.Complete := by
  constructor
  · intro h
    exact h path buf fildes hs hg
  · intro h path' buf' fildes' hs' hg'
    obtain rfl := same_fildes hs hg hs' hg'
    exact h

theorem fullTransfer_of {path : Option (List Byte)} {buf : List Byte} {fildes : ℤ}
    (hs : serveConnection readData c.pieces = some (.handler path, buf))
    (hg : C.contentGet path = some fildes) :
    FullTransfer C readData c ↔ 0 ≤ fildes ∧ c.results.Complete := by
  constructor
  · rintro ⟨path', buf', fildes', hs', hg', h⟩
    obtain rfl := same_fildes hs hg hs' hg'
    exact h
  · intro h
    exact ⟨path, buf, fildes, hs, hg, h⟩

/-- The header that `gfserver_serve` adds where the handler has failed. -/
def errorHeader (res : Results) : List SocketOp := (sendheader res gfError 0).1

theorem respond_unknown {path : Option (List Byte)} {fildes : ℤ} (res : Results)
    (hg : C.contentGet path = some fildes) (h : fildes < 0) :
    respond C res (.handler path) =
      some ((sendheader res gfFileNotFound 0).1 ++
        if res.write gfFileNotFound < 0 then errorHeader res else []) := by
  rw [respond, handlerGet, hg, Option.map_some, if_pos h]
  rfl

/-- `handler_get` on a known path, if the file is sent completely. -/
theorem respond_complete {path : Option (List Byte)} {fildes : ℤ} {res : Results}
    (hg : C.contentGet path = some fildes) (h : 0 ≤ fildes) (hc : res.Complete) :
    ∃ bodies : List SocketOp, (∀ op ∈ bodies, op.isBody) ∧
      respond C res (.handler path) =
        some ((sendheader res gfOk (sizeT res.lseek)).1 ++ bodies) := by
  obtain ⟨hops, hret⟩ := copyLoop_of_complete (C.contents fildes) le_rfl hc
  refine ⟨_, hops, ?_⟩
  rw [respond, handlerGet, hg, Option.map_some, if_neg (by omega)]
  dsimp only [Option.map_some]
  rw [if_neg (by omega), List.append_nil]

theorem respond_incomplete {path : Option (List Byte)} {fildes : ℤ} {res : Results}
    (hg : C.contentGet path = some fildes) (h : 0 ≤ fildes) (hc : ¬res.Complete) :
    ∃ before, respond C res (.handler path) = some (before ++ .close :: errorHeader res) := by
  obtain ⟨bodies, _, heq⟩ := copyLoop_of_not_complete (C.contents fildes) hc
  refine ⟨(sendheader res gfOk (sizeT res.lseek)).1 ++ bodies, ?_⟩
  rw [respond, handlerGet, hg, Option.map_some, if_neg (by omega), heq]
  dsimp only [Option.map_some]
  rw [if_pos (by decide), errorHeader]
  simp

/-- The three ways in which a connection is answered: refused, served completely, or answered once
more after a failure that the handler reports. -/
theorem serve_cases {ops : List SocketOp} {buf : List Byte}
    (h : serve C readData c = some (ops, buf)) :
    (HandlerSucceeds C readData c ∧ ¬FullTransfer C readData c ∧
      ops = (sendheader c.results gfFileNotFound 0).1) ∨
    (HandlerSucceeds C readData c ∧ FullTransfer C readData c ∧
      ∃ bodies : List SocketOp, (∀ op ∈ bodies, op.isBody) ∧
        ops = (sendheader c.results gfOk (sizeT c.results.lseek)).1 ++ bodies) ∨
    (¬HandlerSucceeds C readData c ∧ ¬FullTransfer C readData c ∧
      ∃ before, ops = before ++ .close :: errorHeader c.results) := by
  obtain ⟨⟨d, buf'⟩, hs, hserve⟩ := Option.bind_eq_some_iff.mp h
  obtain ⟨ops', hresp, heq⟩ := Option.map_eq_some_iff.mp hserve
  obtain ⟨rfl, rfl⟩ := Prod.mk.inj heq
  cases d with
  | fileNotFound =>
      obtain rfl := Option.some.inj hresp
      refine .inl ⟨fun path buf fildes hs' => ?_, ?_, rfl⟩
      · simp [hs] at hs'
      · rintro ⟨path, buf, fildes, hs', _⟩
        simp [hs] at hs'
  | handler path =>
      obtain ⟨_, hhandler, _⟩ := Option.map_eq_some_iff.mp hresp
      obtain ⟨fildes, hg, _⟩ := Option.map_eq_some_iff.mp hhandler
      rw [handlerSucceeds_of hs hg, fullTransfer_of hs hg]
      dsimp only at hresp
      by_cases hneg : fildes < 0
      · rw [respond_unknown c.results hg hneg, Option.some.injEq] at hresp
        have hnot : ¬(0 ≤ fildes ∧ c.results.Complete) := fun h => by omega
        rw [if_pos hneg]
        by_cases hw : c.results.write gfFileNotFound < 0
        · rw [if_pos hw] at hresp
          refine .inr (.inr ⟨by omega, hnot, [_], hresp.symm⟩)
        · rw [if_neg hw, List.append_nil] at hresp
          exact .inl ⟨by omega, hnot, hresp.symm⟩
      · have hpos : 0 ≤ fildes := by omega
        rw [if_neg hneg, and_iff_right hpos]
        by_cases hc : c.results.Complete
        · obtain ⟨bodies, hbodies, heq⟩ := respond_complete hg hpos hc
          rw [heq, Option.some.injEq] at hresp
          exact .inr (.inl ⟨hc, hc, bodies, hbodies, hresp.symm⟩)
        · obtain ⟨before, heq⟩ := respond_incomplete hg hpos hc
          rw [heq, Option.some.injEq] at hresp
          exact .inr (.inr ⟨hc, hc, before, hresp.symm⟩)

theorem disciplined_of_bodies {b : List Byte} {r : ℤ} {bodies : List SocketOp}
    (h : ∀ op ∈ bodies, SocketOp.isBody op) : Disciplined (.header b r :: bodies) where
  oneHeader := by
    have hzero : bodies.countP SocketOp.isHeader = 0 := by
      rw [List.countP_eq_zero]
      intro op hop
      simp [SocketOp.isHeader_of_isBody (h op hop)]
    rw [List.countP_cons, hzero]
    simp [SocketOp.isHeader]
  closed := by
    refine List.pairwise_cons.mpr ⟨fun _ _ => by simp, ?_⟩
    exact List.pairwise_of_forall_mem_list fun a ha _ _ => SocketOp.ne_close_of_isBody (h a ha)
  headerFirst := by
    refine List.pairwise_cons.mpr ⟨fun _ _ hb => (by cases hb), ?_⟩
    exact List.pairwise_of_forall_mem_list
      fun _ _ a ha _ => SocketOp.isHeader_of_isBody (h a ha)

theorem not_disciplined_of_close {before behind : List SocketOp} (h : behind ≠ []) :
    ¬Disciplined (before ++ .close :: behind) := by
  intro hd
  obtain ⟨op, hop⟩ := List.exists_mem_of_ne_nil behind h
  have hclosed := (List.pairwise_append.mp hd.closed).2.1
  exact (List.pairwise_cons.mp hclosed).1 op hop rfl

/-- **Exactly when the answer to one connection is disciplined**: the header of an unknown path is
written, and the file of a known one read and sent completely, if the request gets that far. -/
theorem disciplined_iff (C : Content) (readData : List Byte) (c : Connection)
    (ops : List SocketOp) (buf : List Byte) (h : serve C readData c = some (ops, buf)) :
    Disciplined ops ↔ HandlerSucceeds C readData c := by
  obtain ⟨hgood, _, rfl⟩ | ⟨hgood, _, bodies, hbodies, rfl⟩ | ⟨hbad, _, before, rfl⟩ :=
    serve_cases h
  · refine iff_of_true ⟨?_, ?_, ?_⟩ hgood
    · exact le_of_eq rfl
    · exact List.pairwise_pair.mpr (by simp)
    · exact List.pairwise_pair.mpr (by simp [SocketOp.isBody])
  · exact iff_of_true (disciplined_of_bodies hbodies) hgood
  · exact iff_of_false (not_disciplined_of_close (by simp [errorHeader, sendheader])) hbad

end connection

/-- A request for a file of two bytes, with given rounds of the copy loop. -/
def requestA (rounds : List Round) : Connection where
  socket := 4
  pieces := [str "GETFILE GET /a\r\n\r\n"]
  results := ⟨2, fun _ => 28, rounds⟩

/-- One file, which stands for every path. -/
def contentA : Content := ⟨fun _ => some 3, fun _ => [97, 98]⟩

theorem complete_a : (requestA [⟨2, 2⟩]).results.Complete :=
  ⟨[⟨2, 2⟩], List.prefix_rfl, by decide, by decide⟩

theorem disciplined_iff_a : ∃ ops buf,
    serve contentA (List.replicate bufsize 0) (requestA [⟨2, 2⟩]) = some (ops, buf) ∧
      Disciplined ops := by
  obtain ⟨⟨ops, buf⟩, h⟩ := Option.isSome_iff_exists.mp (by decide +kernel :
    (serve contentA (List.replicate bufsize 0) (requestA [⟨2, 2⟩])).isSome = true)
  refine ⟨ops, buf, h, (disciplined_iff _ _ _ ops buf h).mpr fun path buf' fildes _ _ => ?_⟩
  split
  · decide
  · exact complete_a

/-- `pread` fails in the middle of the file: the server aborts, and answers once more. -/
theorem not_disciplined_a : ∃ ops buf,
    serve contentA (List.replicate bufsize 0) (requestA [⟨1, 1⟩, ⟨-1, 0⟩]) = some (ops, buf) ∧
      ¬Disciplined ops := by
  obtain ⟨⟨ops, buf⟩, h, hops⟩ := Option.map_eq_some_iff.mp (by decide +kernel :
    (serve contentA (List.replicate bufsize 0) (requestA [⟨1, 1⟩, ⟨-1, 0⟩])).map Prod.fst =
      some ([.header (str "GETFILE OK 2\r\n\r\n") 28, .body [97] 1] ++
        .close :: [.header (str "GETFILE ERROR \r\n\r\n" ++ [0]) 28, .close]))
  obtain rfl := hops
  exact ⟨_, buf, h, not_disciplined_of_close (by simp)⟩

/-! ### Open sockets -/

/-- The loop opens the socket of a connection, and leaves it open unless it is closed on the way. -/
theorem foldl_apply {socket : ℕ} {opened : List ℕ} (ops : List SocketOp) (h : socket ∉ opened) :
    ops.foldl (SocketOp.apply socket) opened = opened ∧
      ops.foldl (SocketOp.apply socket) (opened ++ [socket]) =
        if .close ∈ ops then opened else opened ++ [socket] := by
  have hfilter : opened.filter (· ≠ socket) = opened := by
    apply List.filter_eq_self.mpr
    intro n hn
    simpa using fun heq : n = socket => h (heq ▸ hn)
  induction ops with
  | nil => simp
  | cons op ops ih =>
      obtain ⟨ihself, ihopen⟩ := ih
      cases op with
      | close =>
          have hclose : (opened ++ [socket]).filter (· ≠ socket) = opened := by
            rw [List.filter_append, hfilter]
            simp
          rw [List.foldl_cons, List.foldl_cons, SocketOp.apply, SocketOp.apply, hfilter, hclose,
            if_pos (by simp)]
          exact ⟨ihself, ihself⟩
      | header b r => simpa [SocketOp.apply] using ⟨ihself, ihopen⟩
      | body b r => simpa [SocketOp.apply] using ⟨ihself, ihopen⟩

variable {C : Content}

theorem close_mem_iff {readData buf : List Byte} {c : Connection} {ops : List SocketOp}
    (h : serve C readData c = some (ops, buf)) :
    .close ∈ ops ↔ ¬FullTransfer C readData c := by
  obtain ⟨_, hnot, rfl⟩ | ⟨_, hfull, bodies, hbodies, rfl⟩ | ⟨_, hnot, before, rfl⟩ :=
    serve_cases h
  · exact iff_of_true (by simp [sendheader, gfsSendheader, gfFileNotFound, gfError]) hnot
  · refine iff_of_false (fun hmem => ?_) (not_not_intro hfull)
    rcases List.mem_append.mp hmem with hmem | hmem
    · simp [sendheader, gfsSendheader, gfOk, gfFileNotFound, gfError] at hmem
    · exact SocketOp.ne_close_of_isBody (hbodies _ hmem) rfl
  · exact iff_of_true (by simp) hnot

/-- One more connection leaves no socket open exactly when there was none and its transfer was not
complete. -/
theorem opened_step {s s' : ServerState} {c : Connection}
    (h : serverStep C s (some c) = some s') :
    s'.served = s.served ++ [(s.readData, c)] ∧
      (s'.opened = [] ↔ s.opened = [] ∧ ¬FullTransfer C s.readData c) := by
  unfold serverStep at h
  split at h
  · cases h
  · dsimp only at h
    split at h
    · cases h
    · rename_i hnew
      obtain ⟨⟨ops, buf⟩, hserve, rfl⟩ := Option.map_eq_some_iff.mp h
      refine ⟨rfl, ?_⟩
      rw [(foldl_apply ops hnew).2, ← close_mem_iff hserve]
      by_cases hclose : .close ∈ ops
      · simp [hclose]
      · simp [hclose]

/-- **Exactly when no connection socket is open** at the head of the loop: no transfer so far was
complete. -/
theorem opened_iff (C : Content) (readData : List Byte) (s : ServerState)
    (h : ServerReachable C readData s) :
    s.opened = [] ↔ ∀ c ∈ s.served, ¬FullTransfer C c.1 c.2 := by
  induction h with
  | refl => simp [serverInit]
  | @step s s' a _ _ hs ih =>
      cases a with
      | none =>
          unfold serverStep at hs
          split at hs
          · cases hs
          · obtain rfl := Option.some.inj hs
            exact ih
      | some c =>
          obtain ⟨hserved, hopened⟩ := opened_step hs
          rw [hopened, ih, hserved]
          simp [or_imp, forall_and]

/-- The server after one connection. -/
def servedA (rounds : List Round) : ServerState :=
  (exec (serverStep contentA) (serverInit (List.replicate bufsize 0)) [some (requestA rounds)]).getD
    (serverInit [])

theorem reachable_a (rounds : List Round) (h : (exec (serverStep contentA)
      (serverInit (List.replicate bufsize 0)) [some (requestA rounds)]).isSome = true) :
    ServerReachable contentA (List.replicate bufsize 0) (servedA rounds) := by
  obtain ⟨s, hs⟩ := Option.isSome_iff_exists.mp h
  rw [servedA, hs, Option.getD_some]
  exact reach_of_exec _ hs

theorem opened_iff_failed : (servedA [⟨-1, 0⟩]).served.length = 1 ∧
    ((servedA [⟨-1, 0⟩]).opened = [] ↔
      ∀ c ∈ (servedA [⟨-1, 0⟩]).served, ¬FullTransfer contentA c.1 c.2) :=
  ⟨by decide +kernel, opened_iff _ _ _ (reachable_a [⟨-1, 0⟩] (by decide +kernel))⟩

/-- A complete transfer leaves its socket open. -/
theorem opened_a : ServerReachable contentA (List.replicate bufsize 0) (servedA [⟨2, 2⟩]) ∧
    (servedA [⟨2, 2⟩]).opened ≠ [] :=
  ⟨reachable_a [⟨2, 2⟩] (by decide +kernel), by decide +kernel⟩

end OsProjects.Getfile
