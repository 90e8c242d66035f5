import OsProjects.GetfileClient

/-! # The GETFILE server

`gfs_sendheader` and the loop of `gfserver_serve` of `proj1/getfile/gfserver.c`.

* **The buffer.** `readData` has `BUFSIZE` bytes for all connections; a `recv` overwrites its
  beginning (`recvInto`) and `strtok` writes NULs into it.
* **The pieces.** A connection is the list of what its calls of `recv` give; behind the list it is
  closed and `recv` gives no bytes.
* **The copies.** `dataread` and `dataread2` have room for the bytes received and one NUL.  The
  result is `none` where a string in the buffer has no end or does not fit into its copy.
* `marker == ""` compares two addresses and is false. -/

namespace OsProjects.Getfile

/-! ### Headers -/

/-- `GF_OK`; the server's `gfstatus_t` is `int`. -/
def gfOk : ℤ := 200

/-- `GF_FILE_NOT_FOUND`. -/
def gfFileNotFound : ℤ := 400

/-- `GF_ERROR`. -/
def gfError : ℤ := 500

/-- What `gfs_sendheader` writes, and whether it then calls `gfs_abort`. -/
structure Header where
  written : List Byte
  aborted : Bool
deriving DecidableEq, Repr

def gfsSendheader (status : ℤ) (fileLen : ℕ) : Header :=
  if status = gfError then ⟨str "GETFILE ERROR \r\n\r\n" ++ [0], true⟩
  else if status = gfFileNotFound then ⟨str "GETFILE FILE_NOT_FOUND \r\n\r\n" ++ [0], true⟩
  else ⟨str "GETFILE OK " ++ decimal fileLen ++ str "\r\n\r\n", false⟩

/-! ### Requests -/

/-- How a connection is answered; the path is `NULL` or the string at it. -/
inductive Decision where
  | fileNotFound
  | handler (path : Option (List Byte))
deriving DecidableEq, Repr

/-- `recv(connectionSocket, readData, BUFSIZE, 0)`. -/
def recvInto (p readData : List Byte) : List Byte := p ++ readData.drop p.length

/-- The string in `readData`, copied to where there is room for so many bytes and a NUL. -/
def copyString (room : ℕ) (readData : List Byte) : Option (List Byte) :=
  if 0 ∈ readData ∧ (cstr readData).length ≤ room then some (cstr readData) else none

/-- The three tokens of a request, and the memory that the calls of `strtok` leave. -/
structure Tokens where
  scheme : Option (List Byte)
  request : Option (List Byte)
  filename : Option (List Byte)
  memory : List Byte
deriving DecidableEq, Repr

def tokens (m : List Byte) : Tokens :=
  let scheme := strtok (str " ") m
  let request := strtok (str " ") scheme.rest
  let filename := strtok (str " \r\n") request.rest
  ⟨scheme.token, request.token, filename.token,
    scheme.passed ++ (request.passed ++ (filename.passed ++ filename.rest))⟩

/-- The test before the second `recv`. -/
def wantsMore (readlen : ℕ) (dataread scheme request : List Byte) :
    Option (List Byte) → Bool
  | none => readlen = 12
  | some filename =>
      let marker := dataread.drop (scheme.length + request.length + filename.length + 2)
      (marker.length = 1 && marker ≠ str " ") || (marker.length = 4 && marker ≠ str "\r\n\r\n")

/-- The decision after the first `recv`, or none if there is a second one. -/
def firstDecision (readlen : ℕ) (dataread : List Byte) (t : Tokens) : Option Decision :=
  match t.scheme, t.request with
  | some scheme, some request =>
      if scheme ≠ str "GETFILE" ∨ request ≠ str "GET" then some .fileNotFound
      else if wantsMore readlen dataread scheme request t.filename then none
      else some (.handler t.filename)
  | _, _ => some .fileNotFound

/-- One turn of the loop: the decision and the buffer it leaves. -/
def serveConnection (readData : List Byte) (pieces : List (List Byte)) :
    Option (Decision × List Byte) :=
  let p := pieces.headD []
  let readData := recvInto p readData
  match copyString p.length readData with
  | none => none
  | some dataread =>
      let t := tokens readData
      match firstDecision p.length dataread t with
      | some d => some (d, t.memory)
      | none =>
          let q := pieces.tail.headD []
          let readData := recvInto q t.memory
          match copyString (p.length + q.length - dataread.length) readData with
          | none => none
          | some more => some (.handler (tokens (dataread ++ more)).filename, readData)

/-- The loop over the connections: their decisions in order. -/
def gfserverServe (readData : List Byte) : List (List (List Byte)) → Option (List Decision)
  | [] => some []
  | c :: cs =>
      match serveConnection readData c with
      | none => none
      | some (d, readData) => (gfserverServe readData cs).map (d :: ·)

end OsProjects.Getfile
