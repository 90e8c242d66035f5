import OsProjects.Proxy

/-! # Shared memory objects behind the segment ids

`Proxy.lean` gives every call of `handle_with_cache` a segment of its own.  Here segment ids are
names for `shm_open` and the segments are objects of shared memory, reached by name once and through
the pointer of `mmap` from then on.

* **Names.** `shm_unlink` removes a name and leaves the object alone.  `shm_open` of
  `create_shm_channel` makes a zero-filled object with a new number; where the name is bound it
  fails, `mmap` gives no object and the process dies.  `shm_open` of `cache_worker` is tried again
  until the name is bound.
* **Messages.** Any worker that serves none takes any message of the queue and keeps it until it has
  finished; `mq_send` and `mq_receive` succeed.  A message carries a record of the call that sent
  it.  It reaches its worker intact: the one variable `data` of `simplecached`, which all messages
  go through, is left out here.  `handover_intact` says in which runs that is right.
* **Threads.** The pool, the calls and the locals of both sides are those of `Proxy.lean`, the
  locals of a worker with the call whose message it serves.  The fields of the segment that stand
  there are not used: a step of either side loads them from the object it has mapped and stores them
  there (`Object.view`, `Object.store`), and a broadcast wakes the threads that have that object
  mapped.
* **Writers.** `lengthWriter` and `writtenWriter` record who wrote the two fields last. -/

namespace OsProjects.Channel

/-- The handler writes `mem->file_length`. -/
def HPc.writesLength : HPc → Bool
  | createLength | destroyLength => true
  | _ => false

/-- The handler writes `mem->bytes_written`. -/
def HPc.writesWritten : HPc → Bool
  | createWritten | clear | destroyWritten => true
  | _ => false

/-- The handler broadcasts on `cache_cond`. -/
def HPc.broadcasts : HPc → Bool
  | broadcastLength | broadcastChunk => true
  | _ => false

/-- The worker writes `mem->file_length`. -/
def WPc.writesLength : WPc → Bool
  | zeroLength | setLength => true
  | _ => false

/-- The worker writes `mem->bytes_written`. -/
def WPc.writesWritten : WPc → Bool
  | zeroWritten | publish => true
  | _ => false

/-- The worker signals `proxy_cond`. -/
def WPc.signals : WPc → Bool
  | broadcastLength | signal => true
  | _ => false

end OsProjects.Channel

namespace OsProjects.SharedMemory

open Transition

variable {κ ω : Type*} [DecidableEq κ] [DecidableEq ω]

/-- Who wrote a field of an object last. -/
inductive Writer (κ : Type*) where
  | zeroed                      -- nobody since the object was made
  | handler (k : κ)
  | worker (k : κ)              -- the worker that serves the message of call k

/-- A shared memory object with a `struct shm_data_t` and the data area behind it. -/
structure Object (κ : Type*) where
  fileLength : ℤ
  bytesWritten : ℤ
  data : List Byte
  mutex : ℕ → Option Channel.Side
  lengthWriter : Writer κ
  writtenWriter : Writer κ

/-- An object as `shm_open` and `ftruncate` make it. -/
def zeroFilled (E : Channel.Env) : Object κ :=
  ⟨0, 0, (Channel.init E).data, fun _ => none, .zeroed, .zeroed⟩

/-- The exchange as a thread sees it that has the object mapped. -/
def Object.view (o : Object κ) (c : Channel.State) : Channel.State :=
  { c with
    fileLength := o.fileLength, bytesWritten := o.bytesWritten, data := o.data, mutex := o.mutex }

/-- The object after a step that leaves the exchange at `c`. -/
def Object.store (o : Object κ) (c : Channel.State) (length written : Bool) (t : Writer κ) :
    Object κ where
  fileLength := c.fileLength
  bytesWritten := c.bytesWritten
  data := c.data
  mutex := c.mutex
  lengthWriter := bif length then t else o.lengthWriter
  writtenWriter := bif written then t else o.writtenWriter

/-- Where a call is in `create_shm_channel` and `destroy_shm_seg`. -/
inductive Stage where
  | unlinkOld                   -- shm_unlink(fldes), in create_shm_channel
  | create                      -- shm_open(fldes, O_RDWR | O_CREAT | O_EXCL), ftruncate, mmap
  | mapped
  | unlink                      -- shm_unlink(fldes), in destroy_shm_seg, behind munmap
  | unlinked
deriving DecidableEq, Repr

/-- A message in the queue: the segment id in `fldes`, and the call that sent it. -/
structure Message (κ : Type*) where
  sender : κ
  fldes : List Byte

/-- `mem` is the object that a call made, `wmem` the one that the worker mapped for its message. -/
structure State (κ ω : Type*) where
  proxy : Proxy.State κ
  stage : κ → Stage
  mem : κ → Option ℕ
  names : List Byte → Option ℕ
  objects : ℕ → Object κ
  next : ℕ
  queue : List (Message κ)
  workers : ω → Option (Message κ)
  wmem : κ → Option ℕ

/-- The state after `init_proxy`, which unlinks the ids. -/
def init (segments : ℕ) (E : κ → Channel.Env) : State κ ω where
  proxy := Proxy.init segments E
  stage _ := .unlinkOld
  mem _ := none
  names _ := none
  objects _ := ⟨0, 0, [], fun _ => none, .zeroed, .zeroed⟩
  next := 0
  queue := []
  workers _ := none
  wmem _ := none

/-- Change the locals of all calls. -/
def mapChan (f : κ → Channel.State → Channel.State) (p : Proxy.State κ) : Proxy.State κ :=
  { p with calls := fun k => { p.calls k with chan := f k (p.calls k).chan } }

/-- A broadcast on `cache_cond` of object `o`. -/
def State.wakeWorkers (s : State κ ω) (o : ℕ) : State κ ω :=
  { s with
    proxy := mapChan (fun k c => if s.wmem k = some o then { c with wpc := c.wpc.wake } else c) s.proxy }

/-- A broadcast on `proxy_cond` of object `o`, or a signal for the one call that has it mapped. -/
def State.wakeHandlers (s : State κ ω) (o : ℕ) : State κ ω :=
  { s with
    proxy := mapChan (fun k c => if s.mem k = some o then { c with hpc := c.hpc.wake } else c) s.proxy }

/-- A step of call `k` while it has object `o` mapped. -/
def State.handle (E : κ → Channel.Env) (s : State κ ω) (k : κ) (o : ℕ) (w : ℤ) :
    Option (State κ ω) :=
  let c := s.proxy.calls k
  let p := c.chan.hpc
  (Channel.handlerStep (E k) ((s.objects o).view c.chan) w).map fun ch =>
    let s' : State κ ω := { s with
      proxy := s.proxy.setCall k { c with chan := { ch with wpc := c.chan.wpc } }
      objects := Function.update s.objects o
        ((s.objects o).store ch p.writesLength p.writesWritten (.handler k))
      queue := if p = .mqSend then s.queue ++ [⟨k, c.fldes⟩] else s.queue }
    if p.broadcasts then s'.wakeWorkers o else s'

/-- A step of the worker that serves the message of call `k` and has object `o` mapped. -/
def State.serve (E : κ → Channel.Env) (s : State κ ω) (k : κ) (o : ℕ) (r : ℤ) :
    Option (State κ ω) :=
  let c := s.proxy.calls k
  let p := c.chan.wpc
  (Channel.workerStep (E k) ((s.objects o).view c.chan) r).map fun ch =>
    let s' : State κ ω := { s with
      proxy := s.proxy.setCall k { c with chan := { ch with hpc := c.chan.hpc } }
      objects := Function.update s.objects o
        ((s.objects o).store ch p.writesLength p.writesWritten (.worker k)) }
    if p.signals then s'.wakeHandlers o else s'

/-- One step of call `k` of `handle_with_cache`. -/
def callStep (E : κ → Channel.Env) (s : State κ ω) (k : κ) (w : ℤ) : Option (State κ ω) :=
  let c := s.proxy.calls k
  if c.pc = .body ∧ s.stage k ≠ .unlinked then
    match s.stage k with
    | .unlinkOld =>
        some { s with
          names := Function.update s.names c.fldes none
          stage := Function.update s.stage k .create }
    | .create =>
        match s.names c.fldes with
        | some _ => some { s with proxy := { s.proxy with exited := true } }
        | none =>
            some { s with
              names := Function.update s.names c.fldes (some s.next)
              objects := Function.update s.objects s.next (zeroFilled (E k))
              next := s.next + 1
              mem := Function.update s.mem k (some s.next)
              stage := Function.update s.stage k .mapped }
    | .mapped =>
        if c.chan.hpc = .release then
          -- munmap; the object stays
          some { s with stage := Function.update s.stage k .unlink }
        else (s.mem k).bind fun o => s.handle E k o w
    | .unlink =>
        some { s with
          names := Function.update s.names c.fldes none
          stage := Function.update s.stage k .unlinked }
    | .unlinked => none
  else (Proxy.callStep E s.proxy k w).map fun p => { s with proxy := p }

/-- One step of worker `i` of `cache_worker`. -/
def workerStep (E : κ → Channel.Env) (s : State κ ω) (i : ω) (r : ℤ) : Option (State κ ω) :=
  (s.workers i).bind fun m =>
    let k := m.sender
    let c := s.proxy.calls k
    if c.chan.wpc = .get then
      (Channel.workerStep (E k) c.chan r).map fun ch =>
        { s with proxy := s.proxy.setCall k { c with chan := ch } }
    else match s.wmem k with
      | none =>
          match s.names m.fldes with
          | none => some s
          | some o => some { s with wmem := Function.update s.wmem k (some o) }
      | some o =>
          if c.chan.wpc = .finished then
            some { s with workers := Function.update s.workers i none }
          else s.serve E k o r

/-- Who moves; `receive i n` is worker `i` taking message `n` of the queue. -/
inductive Act (κ ω : Type*) where
  | call (k : κ) (w : ℤ)
  | receive (i : ω) (n : ℕ)
  | worker (i : ω) (r : ℤ)
  | spuriousCall (k : κ)
  | spuriousWorker (k : κ)

/-- One step of the proxy and the workers. -/
def step (E : κ → Channel.Env) (s : State κ ω) (a : Act κ ω) : Option (State κ ω) :=
  if s.proxy.exited then none
  else match a with
    | .call k w => callStep E s k w
    | .receive i n =>
        match s.workers i, s.queue[n]? with
        | none, some m =>
            some { s with
              workers := Function.update s.workers i (some m)
              queue := s.queue.eraseIdx n }
        | _, _ => none
    | .worker i r => workerStep E s i r
    | .spuriousCall k =>
        let c := s.proxy.calls k
        some { s with proxy := s.proxy.setCall k { c with
          pc := c.pc.wakeRead.wakeWrite
          chan := { c.chan with hpc := c.chan.hpc.wake } } }
    | .spuriousWorker k =>
        let c := s.proxy.calls k
        some { s with proxy := s.proxy.setCall k { c with
          chan := { c.chan with wpc := c.chan.wpc.wake } } }

/-- States reached by the proxy with the given number of segments, and the workers. -/
abbrev Reachable (segments : ℕ) (E : κ → Channel.Env) (s : State κ ω) : Prop :=
  Reach (step E) Any (init segments E) s

end OsProjects.SharedMemory
