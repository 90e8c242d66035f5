import OsProjects.CTypes
import OsProjects.Monitor
import OsProjects.Transition

/-! # The multithreaded GETFILE server

`proj1/multithreadgetfile/handler.c`: the accepting thread (here `boss`) calls `handler_get` for
one request after the other, each call puts a task into `workq`; the threads of `worker_main`,
the elements of an arbitrary type `ω`, take tasks and answer them.  Every mutex operation, test of
the waiting loop, release-and-sleep, queue operation, broadcast, file operation and call of the
server library is one step.

* **Requests.** The accepting loop is in the server library; its calls of `handler_get` are the
  arguments of the steps that begin one.  `malloc` is taken to succeed.  A task is its context, an
  element of a type `κ`, and the string at its path.
* **Files.** `content_get` and the bytes behind each descriptor are given (`Env`).  A descriptor has
  one offset for all threads, which `content_get` and `lseek` move and `pread` ignores.
* **Environment.** The argument of a worker's step decides whether `lseek` fails, how much `pread`
  reads (within its interface) or whether it fails, and is the result of `gfs_send`. -/

namespace OsProjects.MtServer

open Monitor Transition

variable {ω κ : Type*} [DecidableEq ω]

/-- `BUFFER_SIZE`. -/
def bufferSize : ℕ := 4096

/-- Status arguments of `gfs_sendheader`. -/
inductive Status where
  | ok
  | fileNotFound
  | error
deriving DecidableEq, Repr

/-- `struct task`. -/
structure Task (κ : Type*) where
  ctx : κ
  path : List Byte
deriving DecidableEq, Repr

/-- The content index and the files behind its descriptors. -/
structure Env where
  contentGet : List Byte → ℤ
  contents : ℤ → List Byte

/-- The calls of the server library that a worker makes for a task. -/
inductive Call where
  | sendheader (status : Status) (fileLen : ℤ)
  | send (buffer : List Byte) (size : ℕ)
  | abort
deriving DecidableEq, Repr

/-- Program points of `handler_get`; `idle` is the accepting loop. -/
inductive BossPc where
  | idle
  | lock
  | malloc
  | enqueue
  | unlock
  | broadcast
deriving DecidableEq, Repr

/-- Program points of `worker_main`. -/
inductive WorkerPc where
  | waitTask (w : Wait)         -- while (steque_isempty(&workq))
  | pop
  | unlock
  | contentGet                  -- fildes = content_get(path)
  | sendNotFound                -- return gfs_sendheader(ctx, GF_FILE_NOT_FOUND, 0)
  | returned
  | lseek                       -- file_len = lseek(fildes, 0, SEEK_END)
  | sendOk                      -- gfs_sendheader(ctx, GF_OK, file_len)
  | copy                        -- while (bytes_transferred < file_len)
  | pread
  | readError                   -- gfs_sendheader(ctx, GF_ERROR, 0) after read_len <= 0
  | readAbort
  | send                        -- write_len = gfs_send(ctx, buffer, read_len)
  | writeError                  -- gfs_sendheader(ctx, GF_ERROR, 0) after write_len != read_len
  | writeAbort
  | advance                     -- bytes_transferred += write_len
deriving DecidableEq, Repr

/-- A worker and its variables; `calls` are those for its present task. -/
structure Worker (κ : Type*) where
  pc : WorkerPc
  job : Option (Task κ)
  fildes : ℤ
  fileLen : ℤ
  bytesTransferred : ℤ
  readLen : ℤ
  writeLen : ℤ
  buffer : List Byte
  calls : List Call

inductive Thread (ω : Type*) where
  | boss
  | worker (w : ω)
deriving DecidableEq, Repr

structure State (ω κ : Type*) where
  workq : List (Task κ)
  workqlock : Option (Thread ω)
  boss : BossPc
  /-- The parameters `ctx` and `path` of the present call of `handler_get`. -/
  request : Option (Task κ)
  t : Option (Task κ)
  workers : ω → Worker κ
  offset : ℤ → ℕ
  exited : Bool
  enqueued : List (Task κ)
  taken : List (ω × Task κ)

/-- A thread of `worker_main` at its first lock. -/
def Worker.init (κ : Type*) : Worker κ :=
  ⟨.waitTask .lock, none, 0, 0, 0, 0, 0, List.replicate bufferSize 0, []⟩

def init (ω κ : Type*) : State ω κ where
  workq := []
  workqlock := none
  boss := .idle
  request := none
  t := none
  workers _ := Worker.init κ
  offset _ := 0
  exited := false
  enqueued := []
  taken := []

/-- A broadcast on `newrq_cond`. -/
def WorkerPc.wake : WorkerPc → WorkerPc
  | waitTask w => waitTask w.wake
  | p => p

def State.setWorker (s : State ω κ) (w : ω) (c : Worker κ) : State ω κ :=
  { s with workers := Function.update s.workers w c }

/-- One step of `handler_get`; `r` is the request for which it is called next. -/
def bossStep (s : State ω κ) (r : Task κ) : Option (State ω κ) :=
  match s.boss with
  | .idle => some { s with request := some r, boss := .lock }
  | .lock =>
      if s.workqlock.isNone then some { s with workqlock := some .boss, boss := .malloc } else none
  | .malloc => some { s with t := s.request, boss := .enqueue }
  | .enqueue =>
      some { s with
        workq := s.workq ++ s.t.toList
        enqueued := s.enqueued ++ s.t.toList
        boss := .unlock }
  | .unlock => some { s with workqlock := none, boss := .broadcast }
  | .broadcast =>
      some { s with
        workers := fun w => { s.workers w with pc := (s.workers w).pc.wake }
        boss := .idle }

/-- The bytes that `pread` stores and its result, when it is to read `r` bytes. -/
def preadAt (data : List Byte) (off r : ℤ) : List Byte × ℤ :=
  if r < 0 ∨ off < 0 then ([], -1)
  else
    let got := (data.drop off.toNat).take (min r.toNat bufferSize)
    (got, got.length)

/-- A worker answers its task: its own variables and the offset it leaves `fildes` at. -/
def jobStep (E : Env) (c : Worker κ) (r : ℤ) : Option (Worker κ × Option ℕ) :=
  match c.pc with
  | .contentGet =>
      c.job.map fun t =>
        let fildes := E.contentGet t.path
        if fildes < 0 then ({ c with fildes := fildes, calls := [], pc := .sendNotFound }, none)
        else ({ c with fildes := fildes, calls := [], pc := .lseek }, some 0)
  | .sendNotFound =>
      some ({ c with calls := c.calls ++ [.sendheader .fileNotFound 0], pc := .returned }, none)
  | .lseek =>
      let size := (E.contents c.fildes).length
      if r < 0 then some ({ c with fileLen := -1, pc := .sendOk }, none)
      else some ({ c with fileLen := size, pc := .sendOk }, some size)
  | .sendOk =>
      some ({ c with
        calls := c.calls ++ [.sendheader .ok c.fileLen], bytesTransferred := 0, pc := .copy }, none)
  | .copy =>
      some ({ c with
        pc := if c.bytesTransferred < c.fileLen then .pread else .waitTask .lock }, none)
  | .pread =>
      let got := preadAt (E.contents c.fildes) c.bytesTransferred r
      some ({ c with
        readLen := got.2
        buffer := got.1 ++ c.buffer.drop got.1.length
        pc := if got.2 ≤ 0 then .readError else .send }, none)
  | .readError =>
      some ({ c with calls := c.calls ++ [.sendheader .error 0], pc := .readAbort }, none)
  | .readAbort => some ({ c with calls := c.calls ++ [.abort], pc := .send }, none)
  | .send =>
      some ({ c with
        calls := c.calls ++ [.send c.buffer (sizeT c.readLen)]
        writeLen := r
        pc := if r = c.readLen then .advance else .writeError }, none)
  | .writeError =>
      some ({ c with calls := c.calls ++ [.sendheader .error 0], pc := .writeAbort }, none)
  -- the `return -1` that would follow is commented out
  | .writeAbort => some ({ c with calls := c.calls ++ [.abort], pc := .advance }, none)
  | .advance =>
      some ({ c with bytesTransferred := c.bytesTransferred + c.writeLen, pc := .copy }, none)
  | .waitTask _ | .pop | .unlock | .returned => none

/-- One step of worker `w`. -/
def workerStep (E : Env) (s : State ω κ) (w : ω) (r : ℤ) : Option (State ω κ) :=
  let c := s.workers w
  match c.pc with
  | .waitTask p =>
      (p.step .pthread s.workqlock.isNone (!s.workq.isEmpty)).map fun r =>
        { s.setWorker w { c with pc := r.2.elim .pop .waitTask } with
          workqlock := r.1.apply (.worker w) s.workqlock }
  | .pop =>
      match s.workq with
      | [] => some { s with exited := true }
      | t :: q =>
          some { s.setWorker w { c with job := some t, pc := .unlock } with
            workq := q
            taken := s.taken ++ [(w, t)] }
  | .unlock => some { s.setWorker w { c with pc := .contentGet } with workqlock := none }
  | _ =>
      (jobStep E c r).map fun j =>
        { s.setWorker w j.1 with
          offset := j.2.elim s.offset fun n => Function.update s.offset j.1.fildes n }

/-- Who moves, or wakes without a broadcast. -/
inductive Act (ω κ : Type*) where
  | boss (r : Task κ)
  | worker (w : ω) (r : ℤ)
  | spurious (w : ω)

/-- One step of the server. -/
def step (E : Env) (s : State ω κ) (a : Act ω κ) : Option (State ω κ) :=
  if s.exited then none
  else match a with
    | .boss r => bossStep s r
    | .worker w r => workerStep E s w r
    | .spurious w => some (s.setWorker w { s.workers w with pc := (s.workers w).pc.wake })

/-- States reached by runs whose steps all meet `ok`. -/
abbrev Reachable (E : Env) (ok : State ω κ → Act ω κ → Prop) (s : State ω κ) : Prop :=
  Reach (step E) ok (init ω κ) s

end OsProjects.MtServer
