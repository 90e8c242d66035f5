import OsProjects.CTypes
import OsProjects.Monitor
import OsProjects.Transition

/-! # The minify client

`proj4/minifyjpeg_main.c`: `main` loads the requests of the workload into `queue` and creates the
threads of `worker_main`, the elements of an arbitrary type `ω`; each takes requests out of the
queue, has the file minified by the server and writes the result.  Every mutex operation, queue
operation, file operation and remote call is one step.

* **Requests.** A `request_t *` is the position of its request in the workload.  The queue is a
  list, which is what `Steque.lean` shows a steque to be.
* **Environment.** The label of a step gives the content of the file that is read, none if it cannot
  be opened; a file is read at one moment.  `minify_via_rpc` is a function of the source bytes.
* **Records.** `popped` are the requests that the workers have taken, `reads` and `writes` their
  calls of `read_from_file` and `write_to_file`. -/

namespace OsProjects.MinifyClient

open Monitor Transition

variable {ω : Type*} [DecidableEq ω]

/-- `request_t`. -/
structure Request where
  inputfilename : List Byte
  outputfilename : List Byte
deriving DecidableEq, Repr

/-- Program points of `worker_main`. -/
inductive Pc where
  | lock                        -- before the loop
  | isempty                     -- while (!steque_isempty(&queue))
  | pop                         -- request = steque_pop(&queue)
  | unlock
  | read                        -- src_val = read_from_file(request->inputfilename, &src_len)
  | minify                      -- dst_val = minify_via_rpc(cl, src_val, src_len, &dst_len)
  | write                       -- write_to_file(request->outputfilename, dst_val, dst_len)
  | free                        -- free(src_val), free(dst_val), free(request)
  | relock
  | unlockEmpty
  | returned
deriving DecidableEq, Repr

/-- A worker and its variables; no request before the first, and behind `free`. -/
structure Worker where
  pc : Pc
  request : Option ℕ
  srcVal : List Byte
  dstVal : List Byte
deriving DecidableEq, Repr

/-- A call of `read_from_file` or `write_to_file` for a request: the file and its bytes. -/
structure FileCall (ω : Type*) where
  worker : ω
  request : ℕ
  filename : List Byte
  bytes : List Byte
deriving DecidableEq, Repr

structure State (ω : Type*) where
  queue : List ℕ
  mutex : Option ω
  workers : ω → Worker
  exited : Bool
  popped : List (ω × ℕ)
  reads : List (FileCall ω)
  writes : List (FileCall ω)

/-- What a run depends on: the requests of the workload, and the server. -/
structure Env where
  requests : List Request
  minify : List Byte → List Byte

/-- The request at a pointer. -/
def Env.request (E : Env) (i : ℕ) : Request := E.requests.getD i ⟨[], []⟩

/-- The queue is loaded and every worker is at its first lock. -/
def init (ω : Type*) (E : Env) : State ω where
  queue := List.range E.requests.length
  mutex := none
  workers _ := ⟨.lock, none, [], []⟩
  exited := false
  popped := []
  reads := []
  writes := []

def State.setWorker (s : State ω) (w : ω) (c : Worker) : State ω :=
  { s with workers := Function.update s.workers w c }

/-- Worker `w` goes on to `pc`. -/
def State.goto (s : State ω) (w : ω) (pc : Pc) : State ω :=
  s.setWorker w { s.workers w with pc := pc }

/-- One step of worker `w`; `file` is the file that it reads. -/
def workerStep (E : Env) (s : State ω) (w : ω) (file : Option (List Byte)) : Option (State ω) :=
  let c := s.workers w
  match c.pc with
  | .lock | .relock =>
      if s.mutex.isNone then some { s.goto w .isempty with mutex := some w } else none
  | .isempty => some (s.goto w (if s.queue.isEmpty then .unlockEmpty else .pop))
  | .pop =>
      match s.queue with
      | [] => some { s with exited := true }
      | i :: q =>
          some { s.setWorker w { c with request := some i, pc := .unlock } with
            queue := q
            popped := s.popped ++ [(w, i)] }
  | .unlock => some { s.goto w .read with mutex := none }
  | .read =>
      c.request.map fun i =>
        match file with
        | none => { s with exited := true }
        | some bytes =>
            { s.setWorker w { c with srcVal := bytes, pc := .minify } with
              reads := s.reads ++ [⟨w, i, (E.request i).inputfilename, bytes⟩] }
  | .minify => some (s.setWorker w { c with dstVal := E.minify c.srcVal, pc := .write })
  | .write =>
      c.request.map fun i =>
        { s.goto w .free with
          writes := s.writes ++ [⟨w, i, (E.request i).outputfilename, c.dstVal⟩] }
  | .free => some (s.setWorker w ⟨.relock, none, [], []⟩)
  | .unlockEmpty => some { s.goto w .returned with mutex := none }
  | .returned => none

/-- One step of the client: of the worker, with the file that it reads. -/
def step (E : Env) (s : State ω) (a : ω × Option (List Byte)) : Option (State ω) :=
  if s.exited then none else workerStep E s a.1 a.2

/-- States of all runs. -/
abbrev Reachable (E : Env) (s : State ω) : Prop := Reach (step E) Any (init ω E) s

end OsProjects.MinifyClient
