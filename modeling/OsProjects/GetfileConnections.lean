import OsProjects.GetfileServer
import OsProjects.Transition

/-! # The connections of the GETFILE server

What the server does to the socket of a connection: `handler_get` of `proj1/getfile/handler.c`, and
`gfserver_serve`, `gfs_sendheader`, `gfs_send` and `gfs_abort` of `proj1/getfile/gfserver.c` around
it.  `GetfileServer.lean` has the decision on the request and the text of the headers.

* **Operations.** A `write` on the socket is recorded with its result, by whether it is the header
  or a part of the body; the other operation is `close`.
* **Environment.** `content_get` and the bytes behind its descriptors are given (`Content`), as are
  the results of the calls for one connection (`Results`); `content_get` has no result where the C
  code has no defined behaviour, as for a null key.
* **Descriptors.** The loop keeps the connection sockets that are open.  `accept` gives a
  descriptor that is not open, and no other descriptor is opened while the server runs. -/

namespace OsProjects.Getfile

open Transition

/-- One operation on the connection socket. -/
inductive SocketOp where
  | header (bytes : List Byte) (result : ℤ)
  | body (bytes : List Byte) (result : ℤ)
  | close
deriving DecidableEq, Repr

/-- The content index and the files behind its descriptors. -/
structure Content where
  contentGet : Option (List Byte) → Option ℤ
  contents : ℤ → List Byte

/-- One round of the copy loop: the results of `pread` and of `gfs_send`. -/
structure Round where
  readLen : ℤ
  writeLen : ℤ
deriving DecidableEq, Repr

/-- What the system calls of one connection return: `lseek`, the `write` of the header with a given
status, and the rounds of the copy loop; behind the list `pread` gives no bytes. -/
structure Results where
  lseek : ℤ
  write : ℤ → ℤ
  rounds : List Round

/-- `gfs_sendheader`, with `gfs_abort` for two of the three statuses. -/
def sendheader (res : Results) (status : ℤ) (fileLen : ℕ) : List SocketOp × ℤ :=
  let h := gfsSendheader status fileLen
  (.header h.written (res.write status) :: (if h.aborted then [.close] else []), res.write status)

/-- `while (bytes_transferred < file_len)`: the operations, and what `handler_get` returns. -/
def copyLoop (file : List Byte) (fileLen bytesTransferred : ℤ) : List Round → List SocketOp × ℤ
  | [] => if bytesTransferred < fileLen then ([.close], -1) else ([], bytesTransferred)
  | r :: rs =>
      if bytesTransferred < fileLen then
        if r.readLen ≤ 0 then ([.close], -1)
        else
          let sent := SocketOp.body
            ((file.drop bytesTransferred.toNat).take r.readLen.toNat) r.writeLen
          if r.writeLen ≠ r.readLen then ([sent, .close], -1)
          else
            let more := copyLoop file fileLen (bytesTransferred + r.writeLen) rs
            (sent :: more.1, more.2)
      else ([], bytesTransferred)

/-- `handler_get`. -/
def handlerGet (C : Content) (res : Results) (path : Option (List Byte)) :
    Option (List SocketOp × ℤ) :=
  (C.contentGet path).map fun fildes =>
    if fildes < 0 then sendheader res gfFileNotFound 0
    else
      let ok := sendheader res gfOk (sizeT res.lseek)
      let copied := copyLoop (C.contents fildes) res.lseek 0 res.rounds
      (ok.1 ++ copied.1, copied.2)

/-- The answer of `gfserver_serve` once it has decided on the request. -/
def respond (C : Content) (res : Results) : Decision → Option (List SocketOp)
  | .fileNotFound => some (sendheader res gfFileNotFound 0).1
  | .handler path =>
      (handlerGet C res path).map fun r =>
        r.1 ++ if r.2 < 0 then (sendheader res gfError 0).1 else []

/-- A connection: its socket, what its calls of `recv` give, and the results of the other calls. -/
structure Connection where
  socket : ℕ
  pieces : List (List Byte)
  results : Results

/-- One turn of the loop: what is done to the socket, and the buffer it leaves. -/
def serve (C : Content) (readData : List Byte) (c : Connection) :
    Option (List SocketOp × List Byte) :=
  (serveConnection readData c.pieces).bind fun r =>
    (respond C c.results r.1).map fun ops => (ops, r.2)

/-! ### The loop -/

/-- The server at the head of its loop; `served` are the connections so far, each with the buffer
it found. -/
structure ServerState where
  readData : List Byte
  opened : List ℕ
  returned : Bool
  served : List (List Byte × Connection)

/-- The open sockets after an operation on a socket. -/
def SocketOp.apply (socket : ℕ) (opened : List ℕ) : SocketOp → List ℕ
  | close => opened.filter (· ≠ socket)
  | header _ _ | body _ _ => opened

/-- One turn of `gfserver_serve`; without a connection `accept` has failed. -/
def serverStep (C : Content) (s : ServerState) (a : Option Connection) : Option ServerState :=
  if s.returned then none
  else match a with
    | none => some { s with returned := true }
    | some c =>
        if c.socket ∈ s.opened then none
        else
          (serve C s.readData c).map fun r =>
            { s with
              readData := r.2
              opened := r.1.foldl (SocketOp.apply c.socket) (s.opened ++ [c.socket])
              served := s.served ++ [(s.readData, c)] }

/-- `readData` as `malloc` gives it, and no connection yet. -/
def serverInit (readData : List Byte) : ServerState := ⟨readData, [], false, []⟩

/-- States at the head of the loop, in runs from any content of the buffer. -/
abbrev ServerReachable (C : Content) (readData : List Byte) (s : ServerState) : Prop :=
  Reach (serverStep C) Any (serverInit readData) s

end OsProjects.Getfile
