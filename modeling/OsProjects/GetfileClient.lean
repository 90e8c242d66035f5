import OsProjects.CString

/-! # The GETFILE client

`gfc_perform` of `proj1/getfile/gfclient.c`: the request it sends and, from the first `recv` on,
what it does as a function of what the successive calls of `recv` give, with its calls of
`headerfunc` and `writefunc`.

* **The copy.** The first piece is copied into `bytesRead + 1` bytes without a NUL behind it;
  `heap` is what the heap holds from there on, up to the next NUL.
* **The header.** `parse` is what the first piece leads to; a null pointer given to `strcmp` or
  `strlen` has no defined behaviour, and the run no result.
* **A failed `recv`.** `bytesRead` is a `size_t`, so `-1` becomes `2 ^ 64 - 1` and the test
  `bytesRead < 0` is never true.  With a complete header that many bytes are passed to `writefunc`;
  before it, that many bytes are copied to a block of none, which has no defined behaviour either.
* **The calls.** `perform` records the pointer and the `size_t` of each call, also where the size
  has wrapped around or stands for a failure; `gfcPerform` has the runs in which `writefunc` is
  given nothing but bytes of the pieces.
* **The request.** `Request` has the fields that `gfc_perform` reads or writes after the request
  has been sent.  `gfc_cleanup`, at every return, frees the structure; what is described is its
  content at that moment.
* Sizes are `size_t`, modulo `2 ^ 64`. -/

namespace OsProjects.Getfile

/-- `gfstatus_t` of `gfclient.h`. -/
inductive Gfstatus where
  | ok
  | fileNotFound
  | error
  | invalid
deriving DecidableEq, Repr

/-- `BUFSIZE`. -/
def bufsize : ℕ := 4096

/-- `struct gfcrequest_t`; `headerargument` is whether the header argument is not `NULL`, and
`statusText` is none as `malloc` leaves it, a pointer to nothing in particular. -/
structure Request where
  status : Gfstatus
  statusText : Option (List Byte)
  bytesOfFileReceived : ℕ
  filelength : ℕ
  filelengthstring : List Byte
  headerargument : Bool
deriving DecidableEq, Repr

/-- `message`, the request that `gfc_perform` sends for a path. -/
def message (path : List Byte) : List Byte := str "GETFILE GET " ++ path ++ str "\r\n\r\n"

/-- One result of `recv`; no bytes means that the connection is closed. -/
inductive Recv where
  | data (p : List Byte)
  | error
deriving DecidableEq, Repr

/-- `gfc_get_status`, if there is a text to compare. -/
def gfcGetStatus (gfr : Request) : Option Gfstatus :=
  gfr.statusText.map fun statusText =>
    if statusText = str "OK" then .ok
    else if statusText = str "FILE_NOT_FOUND" then .fileNotFound
    else if statusText = str "ERROR" then .error
    else .invalid

/-- `gfr->statusText = text; gfr->status = gfc_get_status(gfr);` -/
def Request.setStatus (gfr : Request) (text : List Byte) : Request :=
  let gfr := { gfr with statusText := some text }
  { gfr with status := (gfcGetStatus gfr).getD gfr.status }

/-- The assignments of the `INVALID` branches. -/
def Request.invalid (gfr : Request) : Request :=
  { gfr.setStatus (str "INVALID") with bytesOfFileReceived := 0 }

/-- `gfr->filelengthstring = filelength; gfr->filelength = atol(filelength);` -/
def Request.announce (gfr : Request) (filelength : List Byte) : Request :=
  { gfr with filelengthstring := filelength, filelength := sizeT (atol filelength) }

/-! ### The header -/

/-- What the first piece leads to: `strcmp` or `strlen` on a null pointer, a piece of at most seven
bytes, another refusal, or a status. -/
inductive Parsed where
  | null
  | short
  | refused
  | fileNotFound
  | error
  | ok (filelength : List Byte)
deriving DecidableEq, Repr

/-- The token of the length, behind the token of the status. -/
def lengthToken (rest : List Byte) : Option (List Byte) :=
  let everythingAfterStatus := strtok [] rest
  -- a null first argument goes on from the saved pointer
  (strtok (str " \r\n") (everythingAfterStatus.token.getD everythingAfterStatus.rest)).token

/-- The status words, with what is behind. -/
def parseStatus (statusText rest : List Byte) : Parsed :=
  if statusText ≠ str "OK" then
    if statusText = str "FILE_NOT_FOUND" then .fileNotFound
    else if statusText = str "ERROR" then .error
    else .refused
  else
    match lengthToken rest with
    | none => .null
    | some filelength => .ok filelength

/-- The tests on the first piece, with `heap` behind its copy. -/
def parse (heap p : List Byte) : Parsed :=
  if p.length ≤ 7 then .short
  else
    let scheme := strtok (str " ") (p ++ heap)
    match scheme.token with
    | none => .null
    | some word =>
        if word ≠ str "GETFILE" then .refused
        else if p.length ≤ 10 then .refused
        else
          let status := strtok (str " \r\n") scheme.rest
          match status.token with
          | none => .null
          | some statusText => parseStatus statusText status.rest

/-! ### The loop -/

/-- A call: `writefunc` gets a pointer `offset` bytes behind the beginning of `buffer`, which holds
`piece`. -/
inductive Callback where
  | header (text : List Byte) (size : ℕ)
  | write (piece : List Byte) (offset size : ℕ)
deriving DecidableEq, Repr

/-- The value of `bytesRead`. -/
def Recv.bytesRead : Recv → ℕ
  | .data p => p.length
  | .error => sizeT (-1)

/-- What `recv` has put into `buffer`. -/
def Recv.received : Recv → List Byte
  | .data p => p
  | .error => []

/-- The variables of the loop, with the calls so far. -/
structure Client where
  gfr : Request
  headerComplete : Bool
  bytesTotalOfFile : ℕ
  calls : List Callback
deriving DecidableEq, Repr

namespace Client

/-- `headerfunc` on a text, if there is a header argument. -/
def header (s : Client) (text : List Byte) : Client :=
  if s.gfr.headerargument then { s with calls := s.calls ++ [.header text text.length] } else s

/-- `writefunc`, and the counters. -/
def write (s : Client) (piece : List Byte) (offset size : ℕ) : Client :=
  let total := (s.bytesTotalOfFile + size) % 2 ^ 64
  { s with
    gfr := { s.gfr with bytesOfFileReceived := total }
    bytesTotalOfFile := total
    calls := s.calls ++ [.write piece offset size] }

/-- What is returned when the connection is closed. -/
def closed (s : Client) : ℤ := if s.bytesTotalOfFile < s.gfr.filelength then -1 else 0

end Client

/-- How an iteration ends. -/
inductive IterationEnd where
  | returned (ret : ℤ) (s : Client)
  | next (s : Client)

/-- The test behind `writefunc`. -/
def Client.ended (s : Client) : IterationEnd :=
  if s.bytesTotalOfFile = s.gfr.filelength then .returned 0 s else .next s

/-- `bytesRead - strlen(filelength) - 15`. -/
def filecontentlength (p filelength : List Byte) : ℕ := subSize p.length (filelength.length + 15)

/-- The iteration that reads the header. -/
def headerIteration (heap p : List Byte) (s : Client) : Option IterationEnd :=
  match parse heap p with
  | .null => none
  | .short =>
      some (.returned (-1) ({ s with gfr := s.gfr.invalid }.header (str "INVALID")))
  | .refused => some (.returned (-1) { s with gfr := s.gfr.invalid })
  | .fileNotFound =>
      some (.returned 0 ({ s with gfr := s.gfr.setStatus (str "FILE_NOT_FOUND") }.header
        (str "GETFILE FILE_NOT_FOUND")))
  | .error =>
      some (.returned 0 ({ s with gfr := s.gfr.setStatus (str "ERROR") }.header
        (str "GETFILE ERROR")))
  | .ok filelength =>
      some (Client.write
        { s with
          gfr := (s.gfr.setStatus (str "OK")).announce filelength
          headerComplete := true }
        p (filelength.length + 15) (filecontentlength p filelength)).ended

/-- One iteration, on the result of its `recv`. -/
def iteration (heap : List Byte) (s : Client) (r : Recv) : Option IterationEnd :=
  if r.bytesRead = 0 then some (.returned s.closed s)
  else if s.headerComplete then some (s.write r.received 0 r.bytesRead).ended
  else
    match r with
    | .error => none
    | .data p => headerIteration heap p s

/-- `gfc_perform` from an iteration on; behind the list the connection is closed. -/
def performFrom (heap : List Byte) (s : Client) : List Recv → Option (ℤ × Client)
  | [] => some (s.closed, s)
  | r :: rs =>
      match iteration heap s r with
      | none => none
      | some (.returned ret s') => some (ret, s')
      | some (.next s') => performFrom heap s' rs

/-- The state before the first `recv`. -/
def start (gfr : Request) : Client := ⟨gfr, false, 0, []⟩

/-- `gfc_perform` from the first `recv` on. -/
def perform (heap : List Byte) (gfr : Request) (rs : List Recv) : Option (ℤ × Client) :=
  performFrom heap (start gfr) rs

/-! ### What is received -/

/-- The call gets bytes of the piece only. -/
def Callback.InPiece : Callback → Prop
  | header _ _ => True
  | write piece offset size => offset + size ≤ piece.length

instance : DecidablePred Callback.InPiece
  | .header _ _ => inferInstanceAs (Decidable True)
  | .write _ _ _ => inferInstanceAs (Decidable (_ ≤ _))

/-- The bytes that a call gives to `writefunc`. -/
def Callback.content : Callback → Option (List Byte)
  | .header _ _ => none
  | .write piece offset size => some ((piece.drop offset).take size)

/-- The content so far. -/
def Client.writes (s : Client) : List (List Byte) := s.calls.filterMap Callback.content

/-- `gfc_perform`, where all that `writefunc` is given has been received. -/
def gfcPerform (heap : List Byte) (gfr : Request) (rs : List Recv) : Option (ℤ × Client) :=
  (perform heap gfr rs).filter fun r => ∀ call ∈ r.2.calls, call.InPiece

end OsProjects.Getfile
