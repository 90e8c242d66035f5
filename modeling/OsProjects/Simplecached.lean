import OsProjects.CTypes
import OsProjects.Monitor
import OsProjects.Transition
import Mathlib.Logic.Function.Basic

/-! # The cache: requests handed to the workers

`proj3/simplecached.c`: the receive loop of `main` stores each message of the message queue in
the one variable `data`, puts the address of `data` into `mq_data_queue` and goes on; the
`cache_worker` threads, the elements of an arbitrary type `ω`, pop addresses and read
`msg->path`, `msg->fldes` and `msg->segment_size` through them.

* **Pointers.** Every pointer in the queue is `&data`, so a read through any of them gives the
  present content of `data`.  What the model keeps of a pointer is a *ticket*: the number, in
  the order of receipt, of the message it was enqueued for.
* **Records.** `received` are the messages so far, `taken` the tickets popped and by whom, `uses`
  every value that a worker has read through a pointer, with its ticket.
* **Environment.** The message that `mq_receive` stores (or its failure) is the argument of a step
  of `main`; whether `shm_open`, `mmap` and `munmap` succeed, and whether the exchange goes on,
  the argument of a step of a worker.  The exchange itself is in `Channel.lean`; here only its
  reads of `msg->segment_size` count.
* **Behind `data`.** `mq_receive` stores 1024 bytes, more than `data` holds.  What the others fall
  on is left out; where it is `m_queue`, the next call fails. -/

namespace OsProjects.Simplecached

open Monitor Transition

variable {ω : Type*} [DecidableEq ω]

/-- `MAX_CACHE_REQUEST_LEN`. -/
def maxCacheRequestLen : ℤ := 256

/-- `struct msgq_data_t`. -/
structure Msg where
  segmentSize : ℤ
  path : List Byte
  fldes : List Byte
deriving DecidableEq, Repr

/-- The value of a field as a worker reads it. -/
inductive Use where
  | path (p : List Byte)
  | fldes (f : List Byte)
  | segmentSize (n : ℤ)
deriving DecidableEq, Repr

/-- The value is that of the message's field. -/
def Use.Of (m : Msg) : Use → Prop
  | path p => p = m.path
  | fldes f => f = m.fldes
  | segmentSize n => n = m.segmentSize

/-- Program points of the receive loop of `main`. -/
inductive MainPc where
  | receive                     -- mq_receive(m_queue, &data, ...)
  | waitRoom (w : Wait)         -- while (steq_size == MAX_CACHE_REQUEST_LEN)
  | enqueue                     -- steque_enqueue(&mq_data_queue, &data)
  | increment                   -- steq_size++
  | unlock
  | broadcast
deriving DecidableEq, Repr

/-- Program points of `cache_worker`. -/
inductive WorkerPc where
  | waitRequest (w : Wait)      -- while (steq_size == 0)
  | pop                         -- msg = steque_pop(&mq_data_queue)
  | decrement                   -- steq_size--
  | unlock
  | signal
  | get                         -- simplecache_get(msg->path)
  | shmOpen                     -- shm_open(msg->fldes), again while it fails
  | ftruncate                   -- ftruncate(shm_fldes, msg->segment_size)
  | mmap                        -- mmap(NULL, msg->segment_size, ...)
  | serve                       -- the exchange, with the reads of msg->segment_size for pread
  | munmap                      -- munmap(mem, msg->segment_size)
deriving DecidableEq, Repr

/-- A worker and the ticket of its `msg`. -/
structure Worker where
  pc : WorkerPc
  msg : ℕ
deriving DecidableEq, Repr

inductive Thread (ω : Type*) where
  | main
  | worker (w : ω)
deriving DecidableEq, Repr

structure State (ω : Type*) where
  data : Msg
  mqDataQueue : List ℕ
  steqSize : ℤ
  msgqMutex : Option (Thread ω)
  main : MainPc
  workers : ω → Worker
  exited : Bool
  received : List Msg
  taken : List (ω × ℕ)
  uses : List (ω × ℕ × Use)

/-- Nothing received; every worker is at its first lock. -/
def init (ω : Type*) : State ω where
  data := ⟨0, [], []⟩
  mqDataQueue := []
  steqSize := 0
  msgqMutex := none
  main := .receive
  workers _ := ⟨.waitRequest .lock, 0⟩
  exited := false
  received := []
  taken := []
  uses := []

/-- A signal on `read_cond`. -/
def MainPc.wake : MainPc → MainPc
  | waitRoom w => waitRoom w.wake
  | p => p

/-- A broadcast on `write_cond`. -/
def WorkerPc.wake : WorkerPc → WorkerPc
  | waitRequest w => waitRequest w.wake
  | p => p

def State.setWorker (s : State ω) (w : ω) (c : Worker) : State ω :=
  { s with workers := Function.update s.workers w c }

/-- Worker `w` reads a field through its pointer and goes on to `next`. -/
def State.use (s : State ω) (w : ω) (u : Use) (next : WorkerPc) : State ω :=
  { s.setWorker w { s.workers w with pc := next } with
    uses := s.uses ++ [(w, (s.workers w).msg, u)] }

/-- One step of `main`; `m` is what `mq_receive` stores, `none` for a failure. -/
def mainStep (s : State ω) (m : Option Msg) : Option (State ω) :=
  match s.main with
  | .receive =>
      match m with
      | none => some { s with exited := true }
      | some m => some { s with data := m, received := s.received ++ [m], main := .waitRoom .lock }
  | .waitRoom p =>
      (p.step .pthread s.msgqMutex.isNone (s.steqSize ≠ maxCacheRequestLen)).map fun r =>
        { s with
          msgqMutex := r.1.apply .main s.msgqMutex
          main := r.2.elim .enqueue .waitRoom }
  | .enqueue =>
      some { s with mqDataQueue := s.mqDataQueue ++ [s.received.length - 1], main := .increment }
  | .increment => some { s with steqSize := s.steqSize + 1, main := .unlock }
  | .unlock => some { s with msgqMutex := none, main := .broadcast }
  | .broadcast =>
      some { s with
        workers := fun w => { s.workers w with pc := (s.workers w).pc.wake }
        main := .receive }

/-- One step of worker `w`; `ok` says that its call succeeds, or that the exchange goes on. -/
def workerStep (s : State ω) (w : ω) (ok : Bool) : Option (State ω) :=
  let c := s.workers w
  match c.pc with
  | .waitRequest p =>
      (p.step .pthread s.msgqMutex.isNone (s.steqSize ≠ 0)).map fun r =>
        { s.setWorker w { c with pc := r.2.elim .pop .waitRequest } with
          msgqMutex := r.1.apply (.worker w) s.msgqMutex }
  | .pop =>
      match s.mqDataQueue with
      | [] => some { s with exited := true }
      | t :: q =>
          some { s.setWorker w ⟨.decrement, t⟩ with
            mqDataQueue := q
            taken := s.taken ++ [(w, t)] }
  | .decrement =>
      some { s.setWorker w { c with pc := .unlock } with steqSize := s.steqSize - 1 }
  | .unlock => some { s.setWorker w { c with pc := .signal } with msgqMutex := none }
  | .signal => some { s.setWorker w { c with pc := .get } with main := s.main.wake }
  | .get => some (s.use w (.path s.data.path) .shmOpen)
  | .shmOpen => some (s.use w (.fldes s.data.fldes) (if ok then .ftruncate else .shmOpen))
  | .ftruncate => some (s.use w (.segmentSize s.data.segmentSize) .mmap)
  | .mmap =>
      let s' := s.use w (.segmentSize s.data.segmentSize) .serve
      some (if ok then s' else { s' with exited := true })
  | .serve =>
      if ok then some (s.use w (.segmentSize s.data.segmentSize) .serve)
      else some (s.setWorker w { c with pc := .munmap })
  | .munmap =>
      let s' := s.use w (.segmentSize s.data.segmentSize) (.waitRequest .lock)
      some (if ok then s' else { s' with exited := true })

/-- Who moves, or wakes without a signal. -/
inductive Act (ω : Type*) where
  | main (m : Option Msg)
  | worker (w : ω) (ok : Bool)
  | spuriousMain
  | spuriousWorker (w : ω)

/-- One step of `simplecached`. -/
def step (s : State ω) (a : Act ω) : Option (State ω) :=
  if s.exited then none
  else match a with
    | .main m => mainStep s m
    | .worker w ok => workerStep s w ok
    | .spuriousMain => some { s with main := s.main.wake }
    | .spuriousWorker w =>
        some (s.setWorker w { s.workers w with pc := (s.workers w).pc.wake })

/-- States reached by runs whose steps all meet `ok`. -/
abbrev Reachable (ok : State ω → Act ω → Prop) (s : State ω) : Prop :=
  Reach step ok (init ω) s

end OsProjects.Simplecached
