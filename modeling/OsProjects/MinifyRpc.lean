import OsProjects.MinifyRuns
import OsProjects.Xdr

/-! # Minifying by remote procedure call

`minify_via_rpc` of `proj4/minify_via_rpc.c` and the server of `proj4/minifyjpeg_svc.c` and
`proj4/minifyjpeg.c`, with the encoding of `proj4/minifyjpeg_xdr.c` between them.
`MinifyClient.lean` takes a remote call to be one step; here it is sent, served and received in steps
of their own, and those of other workers come in between.

* **Messages.** Every worker has a `CLIENT` and so a connection of its own, with at most one call on
  it.  A call is the bytes of its arguments, a reply its status and the bytes of its results; what
  else the library puts into a message is not modelled.
* **Server.** `svc_run` dispatches one call after the other.  `magickminify` is given, none where it
  exits or returns `NULL`, which ends the server.
* **Client.** The results are decoded into the `src_len` bytes that `minify_via_rpc` has allocated,
  and `xdr_bytes` does not know how many these are.  A call that fails ends the client, as does the
  `TIMEOUT` of a call that is not answered. -/

namespace OsProjects.MinifyRpc

open MinifyClient Transition

/-- `NULLPROC`. -/
def nullProc : ℕ := 0

/-- `MINIFYJPEG_PROC`. -/
def minifyjpegProc : ℕ := 1

/-- The bound `~0` of `xdr_minifyjpeg_input` and `xdr_minifyjpeg_output`. -/
def maxsize : ℕ := 2 ^ 32 - 1

/-- A reply. -/
inductive Reply where
  | success (results : List Byte)
  | procUnavail                 -- svcerr_noproc
  | garbageArgs                 -- svcerr_decode
deriving DecidableEq, Repr

/-- The encoding of a `minifyjpeg_input` or a `minifyjpeg_output`, whose length is a `u_int`. -/
def xdrEncode (val : List Byte) : List Byte := Xdr.putBytes val (val.length % 2 ^ 32)

/-- `minifyjpeg_prog_1` for procedure `proc`: the reply, none where the server exits. -/
def minifyjpegProg1 (magickminify : List Byte → Option (List Byte)) (proc : ℕ) (args : List Byte) :
    Option Reply :=
  if proc = nullProc then some (.success [])
  else if proc = minifyjpegProc then
    match Xdr.getBytes maxsize args with
    | none => some .garbageArgs
    | some (src, _) => (magickminify src).map fun dst => .success (xdrEncode dst)
  else some .procUnavail

/-- What `minify_via_rpc` does with a reply. -/
inductive Outcome where
  | returns (dst : List Byte)
  | overflows                   -- the results are longer than the buffer
  | fails                       -- clnt_perror, exit(1)
deriving DecidableEq, Repr

/-- The reply is decoded into a buffer of `srcLen` bytes. -/
def receive (srcLen : ℕ) : Reply → Outcome
  | .success results =>
      match Xdr.getBytes maxsize results with
      | none => .fails
      | some (dst, _) => if dst.length ≤ srcLen then .returns dst else .overflows
  | .procUnavail | .garbageArgs => .fails

/-- The connection of a worker. -/
inductive Wire where
  | idle
  | calling (args : List Byte)
  | answered (reply : Reply)
deriving DecidableEq, Repr

structure State (ω : Type*) where
  client : MinifyClient.State ω
  wire : ω → Wire
  serverUp : Bool
  died : Bool                   -- exit(1) in minify_via_rpc
  timedOut : Bool               -- the same, after TIMEOUT
  overflowed : Bool             -- a reply has been written past the end of its buffer

inductive Act (ω : Type*) where
  | worker (w : ω) (file : Option (List Byte))
  | serve (w : ω)
  | timeout (w : ω)

variable {ω : Type*} [DecidableEq ω]

/-- What the server makes of a file, where it makes something of it. -/
def viaRpc (magickminify : List Byte → Option (List Byte)) (src : List Byte) : List Byte :=
  match magickminify (src.take (src.length % 2 ^ 32)) with
  | none => []
  | some dst => dst.take (dst.length % 2 ^ 32)

/-- The client of `MinifyClient.lean` with such a server. -/
def env (requests : List Request) (magickminify : List Byte → Option (List Byte)) : Env :=
  ⟨requests, viaRpc magickminify⟩

def init (ω : Type*) (requests : List Request) (magickminify : List Byte → Option (List Byte)) :
    State ω :=
  ⟨MinifyClient.init ω (env requests magickminify), fun _ => .idle, true, false, false, false⟩

/-- One step of worker `w` in `minify_via_rpc`. -/
def callStep (s : State ω) (w : ω) : Option (State ω) :=
  let c := s.client.workers w
  match s.wire w with
  | .idle => some { s with wire := Function.update s.wire w (.calling (xdrEncode c.srcVal)) }
  | .calling _ => if s.serverUp then none else some { s with died := true }
  | .answered reply =>
      match receive c.srcVal.length reply with
      | .returns dst =>
          some { s with
            client := s.client.setWorker w { c with dstVal := dst, pc := .write }
            wire := Function.update s.wire w .idle }
      | .overflows => some { s with overflowed := true }
      | .fails => some { s with died := true }

/-- The process of the client has ended, or its heap is spoilt. -/
def State.over (s : State ω) : Bool := s.client.exited || s.died || s.timedOut || s.overflowed

/-- One step of the system. -/
def step (requests : List Request) (magickminify : List Byte → Option (List Byte)) (s : State ω)
    (a : Act ω) : Option (State ω) :=
  if s.over then none
  else match a with
    | .worker w file =>
        if (s.client.workers w).pc = .minify then callStep s w
        else (workerStep (env requests magickminify) s.client w file).map fun t =>
          { s with client := t }
    | .serve w =>
        match s.wire w with
        | .calling args =>
            if s.serverUp then
              match minifyjpegProg1 magickminify minifyjpegProc args with
              | some reply => some { s with wire := Function.update s.wire w (.answered reply) }
              | none => some { s with serverUp := false }
            else none
        | _ => none
    | .timeout w =>
        match s.wire w with
        | .calling _ => some { s with timedOut := true }
        | _ => none

abbrev Reachable (requests : List Request) (magickminify : List Byte → Option (List Byte))
    (s : State ω) : Prop :=
  Reach (step requests magickminify) Any (init ω requests magickminify) s

/-! ### One call -/

section call
variable {magickminify : List Byte → Option (List Byte)}

theorem getBytes_xdrEncode (val : List Byte) :
    Xdr.getBytes maxsize (xdrEncode val) = some (val.take (val.length % 2 ^ 32), []) := by
  have hlt : val.length % 2 ^ 32 < 2 ^ 32 := by omega
  have hmax : val.length % 2 ^ 32 ≤ maxsize := by
    unfold maxsize
    omega
  have h := Xdr.getBytes_putBytes [] (Nat.mod_le val.length (2 ^ 32)) hlt hmax
  rwa [List.append_nil] at h

theorem prog1_xdrEncode (src : List Byte) :
    minifyjpegProg1 magickminify minifyjpegProc (xdrEncode src) =
      (magickminify (src.take (src.length % 2 ^ 32))).map fun dst => .success (xdrEncode dst) := by
  have hproc : minifyjpegProc ≠ nullProc := by decide
  simp only [minifyjpegProg1, if_neg hproc, if_true, getBytes_xdrEncode]

theorem receive_success (n : ℕ) {results dst rest : List Byte}
    (h : Xdr.getBytes maxsize results = some (dst, rest)) :
    receive n (.success results) = if dst.length ≤ n then .returns dst else .overflows := by
  simp only [receive, h]

/-- The client receives what the server has made of its file, if it fits. -/
theorem receive_answer {src : List Byte} {reply : Reply} (n : ℕ)
    (h : minifyjpegProg1 magickminify minifyjpegProc (xdrEncode src) = some reply) :
    receive n reply = if (viaRpc magickminify src).length ≤ n then
      .returns (viaRpc magickminify src) else .overflows := by
  rw [prog1_xdrEncode] at h
  obtain ⟨dst, hdst, rfl⟩ := Option.map_eq_some_iff.mp h
  have hvia : viaRpc magickminify src = dst.take (dst.length % 2 ^ 32) := by
    unfold viaRpc
    rw [hdst]
  rw [hvia, receive_success n (getBytes_xdrEncode dst)]

end call

/-! ### All calls -/

section system
variable {requests : List Request} {magickminify : List Byte → Option (List Byte)}
  {s s' : State ω} {v w : ω}

/-- A call that is under way is that of the worker's file, and its answer that of the server. -/
def Wire.Carries (magickminify : List Byte → Option (List Byte)) (c : Worker) : Wire → Prop
  | .idle => True
  | .calling args => c.pc = .minify ∧ args = xdrEncode c.srcVal
  | .answered reply =>
      c.pc = .minify ∧
        minifyjpegProg1 magickminify minifyjpegProc (xdrEncode c.srcVal) = some reply

/-- The file of worker `w` is one that the server does not survive. -/
def Rejects (magickminify : List Byte → Option (List Byte)) (s : State ω) (w : ω) : Prop :=
  (∃ args, s.wire w = .calling args) ∧
    magickminify ((s.client.workers w).srcVal.take ((s.client.workers w).srcVal.length % 2 ^ 32)) =
      none

/-- What holds of a running system. -/
structure Carried (requests : List Request) (magickminify : List Byte → Option (List Byte))
    (s : State ω) : Prop where
  client : MinifyClient.Reachable (env requests magickminify) s.client
  wire : ∀ w, (s.wire w).Carries magickminify (s.client.workers w)
  server : s.serverUp = false → ∃ w, Rejects magickminify s w
  died : s.died = true → s.serverUp = false
  overflowed : s.overflowed = true → ∃ w, (s.client.workers w).pc = .minify ∧
    (s.client.workers w).srcVal.length < (viaRpc magickminify (s.client.workers w).srcVal).length

/-- The moves of the system. -/
inductive Move (requests : List Request) (magickminify : List Byte → Option (List Byte))
    (s : State ω) : State ω → Prop
  | worker (w : ω) (file : Option (List Byte)) (t : MinifyClient.State ω)
      (hp : (s.client.workers w).pc ≠ .minify)
      (h : workerStep (env requests magickminify) s.client w file = some t) :
      Move requests magickminify s { s with client := t }
  | call (w : ω) (hp : (s.client.workers w).pc = .minify) (hw : s.wire w = .idle) :
      Move requests magickminify s { s with
        wire := Function.update s.wire w (.calling (xdrEncode (s.client.workers w).srcVal)) }
  | lost (w : ω) (args : List Byte) (hw : s.wire w = .calling args) (hup : s.serverUp = false) :
      Move requests magickminify s { s with died := true }
  | returns (w : ω) (reply : Reply) (dst : List Byte) (hw : s.wire w = .answered reply)
      (hr : receive (s.client.workers w).srcVal.length reply = .returns dst) :
      Move requests magickminify s { s with
        client := s.client.setWorker w { s.client.workers w with dstVal := dst, pc := .write }
        wire := Function.update s.wire w .idle }
  | overflows (w : ω) (reply : Reply) (hw : s.wire w = .answered reply)
      (hr : receive (s.client.workers w).srcVal.length reply = .overflows) :
      Move requests magickminify s { s with overflowed := true }
  | fails (w : ω) (reply : Reply) (hw : s.wire w = .answered reply)
      (hr : receive (s.client.workers w).srcVal.length reply = .fails) :
      Move requests magickminify s { s with died := true }
  | serve (w : ω) (args : List Byte) (reply : Reply) (hw : s.wire w = .calling args)
      (hup : s.serverUp = true)
      (h : minifyjpegProg1 magickminify minifyjpegProc args = some reply) :
      Move requests magickminify s { s with wire := Function.update s.wire w (.answered reply) }
  | crash (w : ω) (args : List Byte) (hw : s.wire w = .calling args) (hup : s.serverUp = true)
      (h : minifyjpegProg1 magickminify minifyjpegProc args = none) :
      Move requests magickminify s { s with serverUp := false }
  | timeout (w : ω) (args : List Byte) (hw : s.wire w = .calling args) :
      Move requests magickminify s { s with timedOut := true }

theorem callStep_move (hp : (s.client.workers w).pc = .minify) (h : callStep s w = some s') :
    Move requests magickminify s s' := by
  unfold callStep at h
  cases hw : s.wire w with
  | idle =>
      simp only [hw, Option.some.injEq] at h
      exact h ▸ .call w hp hw
  | calling args =>
      simp only [hw] at h
      split at h
      · cases h
      · next hup => exact Option.some.inj h ▸ .lost w args hw (Bool.eq_false_iff.mpr hup)
  | answered reply =>
      simp only [hw] at h
      split at h
      · next dst hr => exact Option.some.inj h ▸ .returns w reply dst hw hr
      · next hr => exact Option.some.inj h ▸ .overflows w reply hw hr
      · next hr => exact Option.some.inj h ▸ .fails w reply hw hr

theorem step_move {a : Act ω} (h : step requests magickminify s a = some s') :
    s.over = false ∧ Move requests magickminify s s' := by
  unfold step at h
  obtain ⟨hover, h⟩ := Option.ite_none_left_eq_some.mp h
  refine ⟨Bool.eq_false_iff.mpr hover, ?_⟩
  cases a with
  | worker w file =>
      dsimp only at h
      split at h
      · next hp => exact callStep_move hp h
      · next hp =>
          obtain ⟨t, ht, rfl⟩ := Option.map_eq_some_iff.mp h
          exact .worker w file t hp ht
  | serve w =>
      dsimp only at h
      split at h
      · next args hw =>
          split at h
          · next hup =>
              split at h
              · next reply hr => exact Option.some.inj h ▸ .serve w args reply hw hup hr
              · next hr => exact Option.some.inj h ▸ .crash w args hw hup hr
          · cases h
      · cases h
  | timeout w =>
      dsimp only at h
      split at h
      · next args hw => exact Option.some.inj h ▸ .timeout w args hw
      · cases h

/-- A worker that is not in a remote call has none under way. -/
theorem idle_of_carries {c : Worker} {x : Wire} (h : x.Carries magickminify c)
    (hp : c.pc ≠ .minify) : x = .idle := by
  cases x with
  | idle => rfl
  | calling args => exact absurd h.1 hp
  | answered reply => exact absurd h.1 hp

omit [DecidableEq ω] in
/-- A rejected call stays where it is as long as its worker does nothing. -/
theorem Rejects.of_frame (h : Rejects magickminify s v) (hw : ∀ args, s.wire w ≠ .calling args)
    (hwire : ∀ u ≠ w, s'.wire u = s.wire u)
    (hclient : ∀ u ≠ w, s'.client.workers u = s.client.workers u) : Rejects magickminify s' v := by
  obtain ⟨⟨args, hargs⟩, hnone⟩ := h
  have hvw : v ≠ w := by
    rintro rfl
    exact hw args hargs
  unfold Rejects
  rw [hwire v hvw, hclient v hvw]
  exact ⟨⟨args, hargs⟩, hnone⟩

theorem Carried.worker {file : Option (List Byte)} {t : MinifyClient.State ω}
    (hC : Carried requests magickminify s) (hover : s.over = false)
    (hp : (s.client.workers w).pc ≠ .minify)
    (h : workerStep (env requests magickminify) s.client w file = some t) :
    Carried requests magickminify { s with client := t } := by
  simp only [State.over, Bool.or_eq_false_iff] at hover
  obtain ⟨⟨⟨hexited, _⟩, _⟩, hoverflowed⟩ := hover
  have hframe := (workerStep_move h).frame
  have hidle := idle_of_carries (hC.wire w) hp
  refine ⟨?_, fun v => ?_, fun hup => ?_, hC.died, fun h => ?_⟩
  · apply hC.client.step (a := (w, file)) trivial
    rwa [MinifyClient.step, hexited, if_neg Bool.false_ne_true]
  · by_cases hvw : v = w
    · dsimp only
      rw [hvw, hidle]
      trivial
    · dsimp only
      rw [hframe v hvw]
      exact hC.wire v
  · obtain ⟨v, hv⟩ := hC.server hup
    exact ⟨v, hv.of_frame (w := w) (by simp [hidle]) (fun _ _ => rfl) hframe⟩
  · rw [hoverflowed] at h
    cases h

/-- The reply makes the step that `MinifyClient.lean` makes. -/
theorem Carried.client_step {reply : Reply} {dst : List Byte}
    (hC : Carried requests magickminify s) (hover : s.over = false)
    (hw : s.wire w = .answered reply)
    (hr : receive (s.client.workers w).srcVal.length reply = .returns dst) :
    MinifyClient.step (env requests magickminify) s.client (w, none) =
      some (s.client.setWorker w { s.client.workers w with dstVal := dst, pc := .write }) := by
  simp only [State.over, Bool.or_eq_false_iff] at hover
  have hcarries := hC.wire w
  rw [hw] at hcarries
  obtain ⟨hp, hanswer⟩ := hcarries
  rw [receive_answer _ hanswer] at hr
  have hdst : viaRpc magickminify (s.client.workers w).srcVal = dst := by
    split at hr
    · exact Outcome.returns.inj hr
    · cases hr
  rw [MinifyClient.step, hover.1.1.1, if_neg Bool.false_ne_true]
  simp [workerStep, hp, env, hdst]

theorem Carried.returns {reply : Reply} {dst : List Byte}
    (hC : Carried requests magickminify s) (hover : s.over = false)
    (hw : s.wire w = .answered reply)
    (hr : receive (s.client.workers w).srcVal.length reply = .returns dst) :
    Carried requests magickminify { s with
      client := s.client.setWorker w { s.client.workers w with dstVal := dst, pc := .write }
      wire := Function.update s.wire w .idle } := by
  have hstep := hC.client_step hover hw hr
  simp only [State.over, Bool.or_eq_false_iff] at hover
  refine ⟨hC.client.step trivial hstep, fun v => ?_, fun hup => ?_, hC.died, fun h => ?_⟩
  · by_cases hvw : v = w
    · dsimp only
      rw [hvw, Function.update_self]
      trivial
    · dsimp only
      rw [Function.update_of_ne hvw, setWorker_of_ne s.client _ hvw]
      exact hC.wire v
  · obtain ⟨v, hv⟩ := hC.server hup
    refine ⟨v, hv.of_frame (w := w) (by simp [hw]) (fun u hu => Function.update_of_ne hu _ _) ?_⟩
    exact fun u hu => setWorker_of_ne s.client _ hu
  · rw [hover.2] at h
    cases h

theorem Carried.move (hC : Carried requests magickminify s) (hover : s.over = false)
    (h : Move requests magickminify s s') : Carried requests magickminify s' := by
  cases h with
  | worker w file t hp h => exact hC.worker hover hp h
  | returns w reply dst hw hr => exact hC.returns hover hw hr
  | timeout w args hw => exact ⟨hC.client, hC.wire, hC.server, hC.died, hC.overflowed⟩
  | lost w args hw hup => exact ⟨hC.client, hC.wire, hC.server, fun _ => hup, hC.overflowed⟩
  | call w hp hw =>
      refine ⟨hC.client, fun v => ?_, fun hup => ?_, hC.died, hC.overflowed⟩
      · by_cases hvw : v = w
        · dsimp only
          rw [hvw, Function.update_self]
          exact ⟨hp, rfl⟩
        · dsimp only
          rw [Function.update_of_ne hvw]
          exact hC.wire v
      · obtain ⟨v, hv⟩ := hC.server hup
        exact ⟨v, hv.of_frame (w := w) (by simp [hw]) (fun u hu => Function.update_of_ne hu _ _)
          fun _ _ => rfl⟩
  | overflows w reply hw hr =>
      have hcarries := hC.wire w
      rw [hw] at hcarries
      obtain ⟨hp, hanswer⟩ := hcarries
      rw [receive_answer _ hanswer] at hr
      refine ⟨hC.client, hC.wire, hC.server, hC.died, fun _ => ⟨w, hp, ?_⟩⟩
      by_contra hle
      rw [if_pos (not_lt.mp hle)] at hr
      cases hr
  | fails w reply hw hr =>
      have hcarries := hC.wire w
      rw [hw] at hcarries
      rw [receive_answer _ hcarries.2] at hr
      split at hr <;> cases hr
  | serve w args reply hw hup h =>
      have hcarries := hC.wire w
      rw [hw] at hcarries
      refine ⟨hC.client, fun v => ?_, fun hdown => ?_, hC.died, hC.overflowed⟩
      · by_cases hvw : v = w
        · dsimp only
          rw [hvw, Function.update_self]
          exact ⟨hcarries.1, hcarries.2 ▸ h⟩
        · dsimp only
          rw [Function.update_of_ne hvw]
          exact hC.wire v
      · rw [hup] at hdown
        cases hdown
  | crash w args hw hup h =>
      have hcarries := hC.wire w
      rw [hw] at hcarries
      rw [hcarries.2, prog1_xdrEncode, Option.map_eq_none_iff] at h
      exact ⟨hC.client, hC.wire, fun _ => ⟨w, ⟨args, hw⟩, h⟩, fun hdied => rfl, hC.overflowed⟩

theorem Reachable.carried (h : Reachable requests magickminify s) :
    Carried requests magickminify s := by
  refine h.invariant (I := Carried requests magickminify)
    ⟨.refl, fun _ => trivial, fun h => ?_, fun h => ?_, fun h => ?_⟩ ?_
  · cases h
  · cases h
  · cases h
  · intro t a t' hC _ ht
    obtain ⟨hover, hmove⟩ := step_move ht
    exact hC.move hover hmove

/-- **The distributed system does what the client with an atomic server does**: whatever the order
in which calls are sent, served and received, and whoever dies, the workers go through a run of
`MinifyClient.lean`, with a server that makes of every file what `magickminify` makes of as much of
it as its length modulo 2³² says; when all workers have returned, every request has been read and
written once.  A reply is written past the end of its buffer only if it is longer than the file, the
server stops only at a file that `magickminify` rejects, and only then does a call fail. -/
theorem rpc_refines [Nonempty ω] (requests : List Request)
    (magickminify : List Byte → Option (List Byte)) (s : State ω)
    (h : Reachable requests magickminify s) :
    MinifyClient.Reachable (env requests magickminify) s.client ∧
    ((∀ w, (s.client.workers w).pc = .returned) →
      Finished (env requests magickminify) s.client) ∧
    (s.overflowed = true → ∃ w, (s.client.workers w).srcVal.length <
      (viaRpc magickminify (s.client.workers w).srcVal).length) ∧
    (s.serverUp = false → ∃ w, Rejects magickminify s w) ∧
    (s.died = true → s.serverUp = false) := by
  have hC := Reachable.carried h
  refine ⟨hC.client, fun hret => ?_, fun hover => ?_, hC.server, hC.died⟩
  · obtain ⟨w⟩ := ‹Nonempty ω›
    have hqueue := MinifyClient.Reachable.drained hC.client w (by rw [hret w]; rfl)
    exact (MinifyClient.Reachable.books hC.client).finished
      (MinifyClient.Reachable.queue hC.client) hqueue hret
  · obtain ⟨w, _, hlt⟩ := hC.overflowed hover
    exact ⟨w, hlt⟩

/-- One request. -/
def oneRequest : List Request := [⟨[97], [98]⟩]

/-- A server that reverses what it gets, and does not survive an empty file. -/
def reverser (src : List Byte) : Option (List Byte) := if src = [] then none else some src.reverse

/-- One worker; its file is read, sent, served, received and written. -/
def oneRun : List (Act Unit) :=
  List.replicate 4 (.worker () none) ++ [.worker () (some [1, 2]), .worker () none, .serve ()] ++
    List.replicate 6 (.worker () none)

def oneStart : State Unit := init Unit oneRequest reverser

def oneEnd : State Unit := (exec (step oneRequest reverser) oneStart oneRun).getD oneStart

theorem rpc_refines_one : oneEnd.client.writes = [⟨(), 0, [98], [2, 1]⟩] ∧
    Finished (env oneRequest reverser) oneEnd.client := by
  have hret : ∀ w, (oneEnd.client.workers w).pc = .returned := by decide +kernel
  have hr : Reachable oneRequest reverser oneEnd := reach_of_isSome oneRun (by decide +kernel)
  exact ⟨by decide +kernel, (rpc_refines oneRequest reverser oneEnd hr).2.1 hret⟩

/-! ### The system ends -/

/-- **No deadlock**: where no worker and no call can go on, the client is over or all workers have
returned. -/
theorem returned_of_stuck (hC : Carried requests magickminify s) (hover : s.over = false)
    (hworker : ∀ w file, step requests magickminify s (.worker w file) = none)
    (hserve : ∀ w, step requests magickminify s (.serve w) = none) (w : ω) :
    (s.client.workers w).pc = .returned := by
  have hcall : ∀ v, (s.client.workers v).pc ≠ .minify := by
    intro v hp
    have hw := hworker v none
    have hs := hserve v
    simp only [step, hover, Bool.false_eq_true, if_false, hp, if_true, callStep] at hw hs
    cases hv : s.wire v with
    | idle => simp [hv] at hw
    | calling args =>
        cases hup : s.serverUp with
        | false => simp [hv, hup] at hw
        | true =>
            simp only [hv, hup, if_true] at hs
            split at hs <;> cases hs
    | answered reply =>
        simp only [hv] at hw
        split at hw <;> cases hw
  apply MinifyClient.returned_of_stuck hC.client
  intro v
  have hw := hworker v (some [])
  simpa only [step, hover, Bool.false_eq_true, if_false, hcall v, Option.map_eq_none_iff] using hw

section fintype
variable [Fintype ω]

/-- The steps that a call has left before its reply is there. -/
def Wire.left : Wire → ℕ
  | idle => 2
  | calling _ => 1
  | answered _ => 0

@[simp] theorem Wire.left_idle : idle.left = 2 := rfl
@[simp] theorem Wire.left_calling (args : List Byte) : (calling args).left = 1 := rfl
@[simp] theorem Wire.left_answered (reply : Reply) : (answered reply).left = 0 := rfl

/-- The steps that are left, at most. -/
def State.left (s : State ω) : ℕ :=
  if s.over then 0
  else 1 + (if s.serverUp then 1 else 0) + 3 * s.client.left + ∑ w, (s.wire w).left

theorem sum_wire (f : ω → Wire) (w : ω) (x : Wire) :
    ∑ v, (Function.update f w x v).left + (f w).left = ∑ v, (f v).left + x.left := by
  have h := sum_step (f := fun v => (Function.update f w x v).left) (g := fun v => (f v).left) w
    fun v hv => by rw [Function.update_of_ne hv]
  rwa [Function.update_self] at h

omit [DecidableEq ω] in
theorem left_of_over (h : s.over = true) : s.left = 0 := by rw [State.left, if_pos h]

omit [DecidableEq ω] in
theorem left_of_running (h : s.over = false) :
    s.left = 1 + (if s.serverUp then 1 else 0) + 3 * s.client.left + ∑ w, (s.wire w).left := by
  rw [State.left, h, if_neg Bool.false_ne_true]

/-- **Every step is at least one step less.** -/
theorem Move.left_lt (hC : Carried requests magickminify s) (hover : s.over = false)
    (h : Move requests magickminify s s') : s'.left < s.left := by
  have hleft := left_of_running hover
  have hends : s'.over = true → s'.left < s.left := by
    intro hover'
    rw [left_of_over hover', hleft]
    omega
  have hgoes : s'.over = false → 1 + (if s'.serverUp then 1 else 0) + 3 * s'.client.left +
      ∑ w, (s'.wire w).left < 1 + (if s.serverUp then 1 else 0) + 3 * s.client.left +
      ∑ w, (s.wire w).left → s'.left < s.left := by
    intro hover' hlt
    rwa [left_of_running hover', hleft]
  have hover' := hover
  simp only [State.over, Bool.or_eq_false_iff] at hover'
  obtain ⟨⟨⟨hexited, hdied⟩, htimed⟩, hoverflowed⟩ := hover'
  cases h with
  | lost w args hw hup | fails w reply hw hr => exact hends (by simp [State.over])
  | overflows w reply hw hr => exact hends (by simp [State.over])
  | timeout w args hw => exact hends (by simp [State.over])
  | worker w file t hp h =>
      obtain ⟨_, hexits⟩ | ⟨hexits, hone⟩ := (workerStep_move h).left
        (MinifyClient.Reachable.queue hC.client) hexited
      · exact hends (by simp [State.over, hexits])
      · apply hgoes (by simp [State.over, hexits, hdied, htimed, hoverflowed])
        dsimp only
        omega
  | call w hp hw =>
      have hsum := sum_wire s.wire w (.calling (xdrEncode (s.client.workers w).srcVal))
      rw [hw, Wire.left_idle, Wire.left_calling] at hsum
      apply hgoes hover
      dsimp only
      omega
  | serve w args reply hw hup h =>
      have hsum := sum_wire s.wire w (.answered reply)
      rw [hw, Wire.left_calling, Wire.left_answered] at hsum
      apply hgoes hover
      dsimp only
      omega
  | crash w args hw hup h =>
      apply hgoes hover
      simp [hup]
  | returns w reply dst hw hr =>
      have hstep := hC.client_step hover hw hr
      have hsum := sum_wire s.wire w .idle
      rw [hw, Wire.left_answered, Wire.left_idle] at hsum
      obtain ⟨_, hexits⟩ | ⟨hexits, hone⟩ := (MinifyClient.step_move hstep).left
        (MinifyClient.Reachable.queue hC.client) hexited
      · exact hends (by simp only [State.over, hexits, Bool.true_or])
      · apply hgoes (by simp only [State.over, hexits, hdied, htimed, hoverflowed, Bool.or_self])
        dsimp only at hone ⊢
        omega

omit [DecidableEq ω] in
theorem left_init (requests : List Request) (magickminify : List Byte → Option (List Byte)) :
    (init ω requests magickminify).left = 24 * requests.length + 11 * Fintype.card ω + 2 := by
  rw [left_of_running rfl]
  have hclient : (init ω requests magickminify).client.left =
      8 * requests.length + 3 * Fintype.card ω := MinifyClient.left_init (env requests magickminify)
  have hwire : ∑ w, ((init ω requests magickminify).wire w).left = Fintype.card ω * 2 := by
    simp [init]
  rw [hclient, hwire]
  simp only [init, if_true]
  omega

/-- **Every run ends**: a run of the distributed system has a bounded number of steps, and it can be
continued, without waiting for a timeout, until the client is over or all workers have returned. -/
theorem rpc_ends (requests : List Request) (magickminify : List Byte → Option (List Byte))
    (as : List (Act ω)) (s : State ω)
    (h : exec (step requests magickminify) (init ω requests magickminify) as = some s) :
    as.length ≤ 24 * requests.length + 11 * Fintype.card ω + 2 ∧
    (((∀ w file, step requests magickminify s (.worker w file) = none) ∧
        ∀ w, step requests magickminify s (.serve w) = none) ↔
      s.over = true ∨ ∀ w, (s.client.workers w).pc = .returned) ∧
    ∃ bs t, exec (step requests magickminify) s bs = some t ∧ (∀ w, .timeout w ∉ bs) ∧
      (t.over = true ∨ ∀ w, (t.client.workers w).pc = .returned) := by
  have hr : Reachable requests magickminify s := reach_of_exec as h
  have hlowers : Lowers (step requests magickminify) Any
      (init ω requests magickminify) State.left := by
    intro t a t' ht _ hs
    obtain ⟨hover, hmove⟩ := step_move hs
    exact hmove.left_lt (Reachable.carried ht) hover
  have hstuck : ∀ t : State ω, Reachable requests magickminify t →
      (∀ w file, step requests magickminify t (.worker w file) = none) →
      (∀ w, step requests magickminify t (.serve w) = none) →
      t.over = true ∨ ∀ w, (t.client.workers w).pc = .returned := by
    intro t ht hworker hserve
    cases hover : t.over with
    | true => exact .inl rfl
    | false => exact .inr (returned_of_stuck (Reachable.carried ht) hover hworker hserve)
  refine ⟨?_, ⟨fun hs => hstuck s hr hs.1 hs.2, ?_⟩, ?_⟩
  · have hle := hlowers.length_le .refl as h (along_any _ _)
    rw [left_init] at hle
    omega
  · rintro (hover | hret)
    · simp [step, hover]
    · have hidle : ∀ w, s.wire w = .idle := fun w =>
        idle_of_carries ((Reachable.carried hr).wire w) (by simp [hret w])
      simp [step, hret, hidle, workerStep]
  · have hlowers' : Lowers (step requests magickminify) (fun _ a => ∀ w, a ≠ .timeout w) s
        (State.left : State ω → ℕ) := by
      intro t a t' ht _ hs
      exact hlowers t a t' (hr.trans (ht.imp fun _ _ _ _ => trivial)) trivial hs
    obtain ⟨bs, t, hbs, hok, ht⟩ := hlowers'.exists_stuck .refl
    have hrt := hr.trans (reach_of_exec bs hbs)
    refine ⟨bs, t, hbs, ?_, hstuck t hrt (fun w file => ht _ (by simp)) fun w => ht _ (by simp)⟩
    intro w hw
    exact forall_of_along bs hbs hok _ hw w rfl

end fintype

/-- A call that has been sent can be completed. -/
theorem rpc_ends_one : ∃ bs t,
    exec (step oneRequest reverser) ((exec (step oneRequest reverser) oneStart
      (oneRun.take 6)).getD oneStart) bs = some t ∧
      (t.over = true ∨ ∀ w, (t.client.workers w).pc = .returned) := by
  have h : exec (step oneRequest reverser) (init Unit oneRequest reverser) (oneRun.take 6) =
      some ((exec (step oneRequest reverser) oneStart (oneRun.take 6)).getD oneStart) := by
    apply Option.eq_some_of_isSome
    decide +kernel
  obtain ⟨_, _, bs, t, hbs, _, ht⟩ := rpc_ends oneRequest reverser _ _ h
  exact ⟨bs, t, hbs, ht⟩

end system

end OsProjects.MinifyRpc
