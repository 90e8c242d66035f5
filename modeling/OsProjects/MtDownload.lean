import OsProjects.Decimal
import OsProjects.Transition
import Mathlib.Data.Fintype.Card
import Mathlib.Logic.Function.Basic

/-! # The multithreaded download client

`proj1/multithreadgetfile/gfclient_download.c`: `main` enqueues the paths of
`nrequests * nthreads` requests and then creates the workers, the elements of a finite type `ω`
of `nthreads` elements; each pops and performs `nrequests` of them.  Every mutex operation, queue
operation, file operation and call of the client library is one step.

* **Queue.** `workq` is a list, which is what `Steque.lean` shows a steque to be; its items are
  pointers, `none` is `NULL`.
* **Environment.** `workload k` is the path that the `k`-th call of `workload_get_path` returns.
  `openFile` is taken to return; the argument of a step is the result of `gfc_perform` or
  `gfc_get_status`.
* **Records.** `popped` and `requested` are the paths that the workers have popped, and for which
  they have called `gfc_perform`; `opened` and `unlinked` the local files. -/

namespace OsProjects.MtDownload

open Transition

variable {ω : Type*} [DecidableEq ω]

/-- `GF_OK` of `gfclient.h`, the first of its enumeration. -/
def gfOk : ℤ := 0

/-- A `char *`: `NULL` or the string at it. -/
abbrev Ptr := Option (List Byte)

/-- `%06d`. -/
def padded (n : ℕ) : List Byte := List.replicate (6 - (decimal n).length) 48 ++ decimal n

/-- `sprintf(local_path, "%s-%06d", &req_path[1], counter)`. -/
def localPath (reqPath : List Byte) (counter : ℕ) : List Byte :=
  reqPath.drop 1 ++ str "-" ++ padded counter

/-- Program points of `worker_main`. -/
inductive Pc where
  | test                        -- i < nrequests
  | lock
  | isempty                     -- if (steque_isempty(&workq))
  | unlockEmpty                 -- unlock and break
  | pop                         -- treq_path = steque_pop(&workq)
  | nullTest                    -- if (treq_path == NULL) break
  | localPath
  | openFile                    -- with gfc_create() and the gfc_set_*
  | unlock
  | perform                     -- returncode = gfc_perform(gfr)
  | close                       -- fclose(file), and unlink(local_path) if 0 > returncode
  | checkStatus                 -- unlink(local_path) if gfc_get_status(gfr) != GF_OK
  | cleanup                     -- gfc_cleanup(gfr), i++
  | ended
  | endedLocked                 -- ended by the break that leaves workqlock locked
deriving DecidableEq, Repr

/-- A worker and its variables. -/
structure Worker where
  pc : Pc
  i : ℤ
  treqPath : Ptr
  localPath : List Byte
  returncode : ℤ
deriving DecidableEq, Repr

structure State (ω : Type*) where
  nrequests : ℤ
  workq : List Ptr
  workqlock : Option ω
  counter : ℕ
  workers : ω → Worker
  exited : Bool
  popped : List (ω × Ptr)
  requested : List (ω × Ptr)
  opened : List (ω × List Byte)
  unlinked : List (List Byte)

/-- The paths that `main` enqueues. -/
def requestPaths (nrequests : ℤ) (nthreads : ℕ) (workload : ℕ → List Byte) : List (List Byte) :=
  (List.range (nrequests * nthreads).toNat).map workload

/-- All workers are created; a path of more than 256 characters has ended the process before. -/
def init (ω : Type*) [Fintype ω] (nrequests : ℤ) (workload : ℕ → List Byte) : State ω where
  nrequests := nrequests
  workq := (requestPaths nrequests (Fintype.card ω) workload).map some
  workqlock := none
  counter := 0
  workers _ := ⟨.test, 0, none, [], 0⟩
  exited := (requestPaths nrequests (Fintype.card ω) workload).any fun p => 256 < p.length
  popped := []
  requested := []
  opened := []
  unlinked := []

def State.setWorker (s : State ω) (w : ω) (c : Worker) : State ω :=
  { s with workers := Function.update s.workers w c }

/-- Worker `w` goes on to `pc`. -/
def State.goto (s : State ω) (w : ω) (pc : Pc) : State ω :=
  s.setWorker w { s.workers w with pc := pc }

/-- One step of worker `w`; `r` is the result of its call of the client library. -/
def workerStep (s : State ω) (w : ω) (r : ℤ) : Option (State ω) :=
  let c := s.workers w
  match c.pc with
  | .test => some (s.goto w (if c.i < s.nrequests then .lock else .ended))
  | .lock =>
      if s.workqlock.isNone then some { s.goto w .isempty with workqlock := some w } else none
  | .isempty => some (s.goto w (if s.workq.isEmpty then .unlockEmpty else .pop))
  | .unlockEmpty => some { s.goto w .ended with workqlock := none }
  | .pop =>
      match s.workq with
      | [] => some { s with exited := true }
      | p :: q =>
          some { s.setWorker w { c with treqPath := p, pc := .nullTest } with
            workq := q
            popped := s.popped ++ [(w, p)] }
  | .nullTest => some (s.goto w (if c.treqPath = none then .endedLocked else .localPath))
  | .localPath =>
      c.treqPath.map fun p =>
        { s.setWorker w { c with localPath := localPath p s.counter, pc := .openFile } with
          counter := s.counter + 1 }
  | .openFile => some { s.goto w .unlock with opened := s.opened ++ [(w, c.localPath)] }
  | .unlock => some { s.goto w .perform with workqlock := none }
  | .perform =>
      some { s.setWorker w { c with returncode := r, pc := .close } with
        requested := s.requested ++ [(w, c.treqPath)] }
  | .close =>
      some { s.goto w .checkStatus with
        unlinked := s.unlinked ++ (if c.returncode < 0 then [c.localPath] else []) }
  | .checkStatus =>
      some { s.goto w .cleanup with
        unlinked := s.unlinked ++ (if r ≠ gfOk then [c.localPath] else []) }
  | .cleanup => some (s.setWorker w { c with i := c.i + 1, pc := .test })
  | .ended | .endedLocked => none

/-- One step of the client: of the worker, with the result of its call. -/
def step (s : State ω) (a : ω × ℤ) : Option (State ω) :=
  if s.exited then none else workerStep s a.1 a.2

/-- The states that the client can reach. -/
abbrev Reachable [Fintype ω] (nrequests : ℤ) (workload : ℕ → List Byte) (s : State ω) : Prop :=
  Reach step Any (init ω nrequests workload) s

end OsProjects.MtDownload
